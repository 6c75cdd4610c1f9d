import TinyLsm.LsmStorage.Engine

/-!
# What every run keeps

`LsmStorageState.WellFormed s contents` is the invariant of a state: its tables hold `contents`,
everything can be encoded, the ids are distinct, and no versioned key is in two containers.  Because
of the last point the order of the containers does not matter: what is stored is what some container
has (`stored_iff`).

`LsmStorageInner.Sound e contents` adds what the engine knows: ids below the next one and timestamps
up to the commit timestamp.
-/

namespace TinyLsm

namespace LsmStorageState

variable {s : LsmStorageState MemTable} {contents : ℕ → List Entry}

/-- The memtables, latest first. -/
def memtables (s : LsmStorageState MemTable) : List MemTable := s.memtable :: s.immMemtables

/-- The entries of every memtable and every listed table. -/
def containers (s : LsmStorageState MemTable) (contents : ℕ → List Entry) : List (List Entry) :=
  s.memtables.map (fun m => m.map.entries) ++ s.listedIds.map contents

/-- Some container has the version. -/
def HasVersion (s : LsmStorageState MemTable) (contents : ℕ → List Entry) (e : Entry) : Prop :=
  ∃ l ∈ s.containers contents, e ∈ l

/-- The ids of the memtables and of the listed tables. -/
def ids (s : LsmStorageState MemTable) : List ℕ := s.memtables.map MemTable.id ++ s.listedIds

theorem sources_eq_map_flatten (s : LsmStorageState MemTable) (contents : ℕ → List Entry) :
    ∃ gs : List (List (List Entry)), gs.flatten = s.containers contents ∧
      gs.map List.flatten = s.sources contents := by
  refine ⟨s.memtables.map (fun m => [m.map.entries]) ++ (s.l0Sstables.map (fun id => [contents id]) ++
    s.levels.map fun level => level.2.map contents), ?_, ?_⟩
  · have hsingle : ∀ {α : Type} (l : List α) (f : α → List Entry),
        (l.map fun a => [f a]).flatten = l.map f := by
      intro α l f
      induction l with
      | nil => rfl
      | cons a l ih => simpa using ih
    rw [List.flatten_append, List.flatten_append, hsingle, hsingle, containers, listedIds,
      List.map_append, List.map_flatten, List.map_map]
    rfl
  · rw [List.map_append, List.map_append, List.map_map, List.map_map, List.map_map]
    simp only [Function.comp_def, List.flatten_singleton]
    rfl

theorem stored_iff (h : DisjointKeys (s.containers contents)) {e : Entry} :
    s.Stored contents e ↔ s.HasVersion contents e := by
  obtain ⟨gs, hflat, hmap⟩ := s.sources_eq_map_flatten contents
  rw [← hflat] at h
  unfold Stored HasVersion
  rw [← hmap, h.flatten.earliestIn_iff, ← hflat]
  simp only [List.mem_map, exists_exists_and_eq_and, List.mem_flatten]
  constructor
  · rintro ⟨g, hg, l, hl, he⟩
    exact ⟨l, ⟨g, hg, hl⟩, he⟩
  · rintro ⟨l, ⟨g, hg, hl⟩, he⟩
    exact ⟨g, hg, l, hl, he⟩

variable [Platform]

/-- The table holds the entries; a table of nothing has no block. -/
def MadeOf (t : SsTable) (es : List Entry) : Prop :=
  t.HasEntries es ∧ t.BloomBuiltFrom es ∨ es = [] ∧ t.blockMeta = []

theorem madeOf_of_built {blockSize id : ℕ} (hblock : blockSize ≤ 65535) {t : SsTable} {es : List Entry}
    (hbuilt : SsTable.ofEntries blockSize id es = .ok t) (hs : SortedRun es)
    (hfits : ∀ x ∈ es, LengthsFit x) : MadeOf t es := by
  by_cases hne : es = []
  · subst hne
    exact Or.inr ⟨rfl, SsTable.ofEntries_nil hbuilt⟩
  · have hadd := hbuilt
    unfold SsTable.ofEntries at hadd
    obtain ⟨b, hadd, -⟩ := Outcome.bind_eq_ok_iff.mp hadd
    have henc : ∀ x ∈ es, Encodable x := fun x hx =>
      ⟨SsTableBuilder.keys_ne_of_addAll hadd x hx, (hfits x hx).key_le, (hfits x hx).value_le⟩
    obtain ⟨t', hbuilt', hent⟩ := SsTable.ofEntries_spec hblock hne hs henc id
    rw [hbuilt] at hbuilt'
    cases hbuilt'
    exact Or.inl hent

theorem MadeOf.hasEntries {t : SsTable} {es : List Entry} (h : MadeOf t es) (hne : es ≠ []) :
    t.HasEntries es ∧ t.BloomBuiltFrom es := h.resolve_right fun h => hne h.1

/-- What every run keeps, whatever the keys are and whether tables are empty. -/
structure Consistent (s : LsmStorageState MemTable) (contents : ℕ → List Entry) : Prop where
  tables : ∀ id ∈ s.listedIds, ∃ t, s.sstables.lookup id = some t ∧ MadeOf t (contents id)
  fits : ∀ l ∈ s.containers contents, ∀ x ∈ l, LengthsFit x
  levels : ∀ level ∈ s.levels, SortedRun (CompactionTask.levelRun contents level.2)
  disjoint : DisjointKeys (s.containers contents)
  nodup : s.ids.Nodup

/-- The invariant of a state. -/
structure WellFormed (s : LsmStorageState MemTable) (contents : ℕ → List Entry) : Prop where
  tables : ∀ id ∈ s.listedIds, s.TableHolds id (contents id)
  bloom : ∀ id ∈ s.listedIds, ∀ t, s.sstables.lookup id = some t → t.BloomBuiltFrom (contents id)
  encodable : ∀ l ∈ s.containers contents, ∀ e ∈ l, Encodable e
  levels : ∀ level ∈ s.levels, SortedRun (CompactionTask.levelRun contents level.2)
  imms : ∀ m ∈ s.immMemtables, m.map.entries ≠ []
  disjoint : DisjointKeys (s.containers contents)
  nodup : s.ids.Nodup

theorem WellFormed.consistent (h : s.WellFormed contents) : s.Consistent contents where
  tables id hid := by
    obtain ⟨t, ht, hent⟩ := h.tables id hid
    exact ⟨t, ht, Or.inl ⟨hent, h.bloom id hid t ht⟩⟩
  fits l hl x hx := ⟨(h.encodable l hl x hx).key_le, (h.encodable l hl x hx).value_le⟩
  levels := h.levels
  disjoint := h.disjoint
  nodup := h.nodup

theorem Consistent.wellFormed (h : s.Consistent contents)
    (hkeys : ∀ l ∈ s.containers contents, ∀ x ∈ l, x.1.keyRef ≠ [])
    (htables : ∀ id ∈ s.listedIds, contents id ≠ []) (himms : ∀ m ∈ s.immMemtables, m.map.entries ≠ []) :
    s.WellFormed contents where
  tables id hid := by
    obtain ⟨t, ht, hmade⟩ := h.tables id hid
    exact ⟨t, ht, (hmade.hasEntries (htables id hid)).1⟩
  bloom id hid t ht := by
    obtain ⟨t', ht', hmade⟩ := h.tables id hid
    rw [ht] at ht'
    cases ht'
    exact (hmade.hasEntries (htables id hid)).2
  encodable l hl x hx := ⟨hkeys l hl x hx, (h.fits l hl x hx).key_le, (h.fits l hl x hx).value_le⟩
  levels := h.levels
  imms := himms
  disjoint := h.disjoint
  nodup := h.nodup

/-! ### An empty memtable becomes the active one -/

/-- The active memtable is the first immutable one, and `m` is active. -/
def frozenState (s : LsmStorageState MemTable) (m : MemTable) : LsmStorageState MemTable :=
  { s with
    memtable := m
    immMemtables := s.memtable :: s.immMemtables }

omit [Platform] in
/-- There is one more container, an empty one. -/
theorem containers_frozenState (s : LsmStorageState MemTable) {m : MemTable} (hempty : m.map = SkipMap.new)
    (contents : ℕ → List Entry) :
    (s.frozenState m).containers contents = [] :: s.containers contents := by
  unfold containers memtables frozenState
  simp only [List.map_cons, hempty]
  rfl

omit [Platform] in
theorem hasVersion_frozenState {m : MemTable} (hempty : m.map = SkipMap.new) {x : Entry} :
    (s.frozenState m).HasVersion contents x ↔ s.HasVersion contents x := by
  unfold HasVersion
  rw [containers_frozenState s hempty, List.exists_mem_cons_iff]
  exact or_iff_right List.not_mem_nil

omit [Platform] in
theorem ids_frozenState (s : LsmStorageState MemTable) (m : MemTable) :
    (s.frozenState m).ids = m.id :: s.ids := rfl

/-- **A new empty memtable keeps the state consistent.** -/
theorem Consistent.frozenState (h : s.Consistent contents) {m : MemTable} (hempty : m.map = SkipMap.new)
    (hid : m.id ∉ s.ids) : (s.frozenState m).Consistent contents where
  tables := h.tables
  fits := by
    rw [containers_frozenState s hempty]
    exact List.forall_mem_cons.mpr ⟨by simp, h.fits⟩
  levels := h.levels
  disjoint := by
    rw [containers_frozenState s hempty]
    exact List.pairwise_cons.mpr ⟨by simp, h.disjoint⟩
  nodup := by
    rw [ids_frozenState]
    exact List.nodup_cons.mpr ⟨hid, h.nodup⟩

namespace WellFormed

theorem memtable_encodable (h : s.WellFormed contents) {m : MemTable} (hm : m ∈ s.memtables)
    {e : Entry} (he : e ∈ m.map.entries) : Encodable e :=
  h.encodable _ (List.mem_append_left _ (List.mem_map_of_mem hm)) e he

theorem table_encodable (h : s.WellFormed contents) {id : ℕ} (hid : id ∈ s.listedIds)
    {e : Entry} (he : e ∈ contents id) : Encodable e :=
  h.encodable _ (List.mem_append_right _ (List.mem_map_of_mem hid)) e he

theorem hasEntries {ids : List ℕ} {ts : List SsTable}
    (h : List.Forall₂ (fun id t => s.sstables.lookup id = some t) ids ts)
    (hids : ∀ id ∈ ids, s.TableHolds id (contents id)) :
    List.Forall₂ SsTable.HasEntries ts (ids.map contents) := by
  induction h with
  | nil => exact .nil
  | @cons id t ids ts hlookup _ ih =>
    obtain ⟨⟨t', hlookup', ht⟩, hrest⟩ := List.forall_mem_cons.mp hids
    rw [hlookup] at hlookup'
    cases hlookup'
    exact .cons ht (ih hrest)

theorem table_ne_nil (h : s.WellFormed contents) {id : ℕ} (hid : id ∈ s.listedIds) :
    contents id ≠ [] := by
  obtain ⟨t, -, ht⟩ := h.tables id hid
  exact ht.ne_nil

theorem holds (h : s.WellFormed contents) : s.Holds contents where
  memtables _ hm _ he := (h.memtable_encodable hm he).key_ne
  tables := h.tables
  valid level hlevel _ hssts := .of_sortedRun
    (hasEntries hssts fun id hid => h.tables id (mem_listedIds.mpr (Or.inr ⟨level, hlevel, hid⟩)))
    (h.levels level hlevel)

/-- What a reader sees, in terms of the containers. -/
theorem newest_iff (h : s.WellFormed contents) {k : Bytes} {r : UInt64} {v : Bytes} :
    Newest (s.Stored contents) k r v ↔ Newest (s.HasVersion contents) k r v :=
  Newest.congr fun _ _ _ _ => stored_iff h.disjoint

end WellFormed

end LsmStorageState

namespace LsmStorageInner

open LsmStorageState

variable [Platform] {e e' : LsmStorageInner} {contents : ℕ → List Entry}

/-- What the engine knows in every run. -/
structure Steady (e : LsmStorageInner) (contents : ℕ → List Entry) : Prop where
  state : e.state.Consistent contents
  blockSize : e.options.blockSize ≤ 65535
  ids : ∀ id ∈ e.state.ids, id < e.nextSstId
  stamps : ∀ x, e.state.HasVersion contents x → x.1.ts ≤ e.latestCommitTs

/-- The invariant of the engine. -/
structure Sound (e : LsmStorageInner) (contents : ℕ → List Entry) : Prop where
  state : e.state.WellFormed contents
  blockSize : e.options.blockSize ≤ 65535
  ids : ∀ id ∈ e.state.ids, id < e.nextSstId
  stamps : ∀ x, e.state.HasVersion contents x → x.1.ts ≤ e.latestCommitTs

theorem Sound.steady (h : e.Sound contents) : e.Steady contents :=
  ⟨h.state.consistent, h.blockSize, h.ids, h.stamps⟩

theorem Steady.sound (h : e.Steady contents) (hw : e.state.WellFormed contents) : e.Sound contents :=
  ⟨hw, h.blockSize, h.ids, h.stamps⟩

/-! ## Freezing -/

omit [Platform] in
/-- The commit timestamp may be set afterwards. -/
theorem Froze.commit {m : MemTable} (h : Froze e e' m) (ts : UInt64) :
    Froze { e with latestCommitTs := ts } { e' with latestCommitTs := ts } m :=
  ⟨h.empty, h.id, h.wal, h.state, h.nextSstId, rfl, h.options, h.manifest, h.ssts, h.wals, h.fresh⟩

omit [Platform] in
/-- A freeze adds an empty container. -/
theorem Froze.containers {m : MemTable} (h : Froze e e' m) (contents : ℕ → List Entry) :
    e'.state.containers contents = [] :: e.state.containers contents := by
  rw [h.state]
  exact containers_frozenState e.state h.empty contents

omit [Platform] in
theorem Froze.hasVersion_iff {m : MemTable} (h : Froze e e' m) {x : Entry} :
    e'.state.HasVersion contents x ↔ e.state.HasVersion contents x := by
  rw [h.state]
  exact hasVersion_frozenState h.empty

omit [Platform] in
theorem Froze.ids_eq {m : MemTable} (h : Froze e e' m) : e'.state.ids = e.nextSstId :: e.state.ids := by
  rw [h.state, ← h.id]
  exact ids_frozenState e.state m

omit [Platform] in
theorem Froze.ids_lt {m : MemTable} (h : Froze e e' m) (hids : ∀ id ∈ e.state.ids, id < e.nextSstId) :
    ∀ id ∈ e'.state.ids, id < e'.nextSstId := by
  rw [h.ids_eq, h.nextSstId]
  intro id hid
  rcases List.mem_cons.mp hid with rfl | hid
  · exact Nat.lt_succ_self _
  · exact (hids id hid).trans (Nat.lt_succ_self _)

/-- **A freeze keeps the state consistent.** -/
theorem Froze.consistent {m : MemTable} (h : Froze e e' m) (hc : e.state.Consistent contents)
    (hids : ∀ id ∈ e.state.ids, id < e.nextSstId) : e'.state.Consistent contents := by
  rw [h.state]
  refine hc.frozenState h.empty ?_
  rw [h.id]
  exact fun hmem => lt_irrefl _ (hids _ hmem)

/-- **A freeze of a non-empty memtable keeps the invariant.** -/
theorem Froze.wellFormed {m : MemTable} (h : Froze e e' m) (hw : e.state.WellFormed contents)
    (hids : ∀ id ∈ e.state.ids, id < e.nextSstId) (hne : e.state.memtable.map.entries ≠ []) :
    e'.state.WellFormed contents := by
  refine (h.consistent hw.consistent hids).wellFormed ?_ ?_ ?_
  · rw [h.containers]
    exact List.forall_mem_cons.mpr ⟨by simp, fun l hl x hx => (hw.encodable l hl x hx).key_ne⟩
  · rw [h.state]
    exact fun id hid => hw.table_ne_nil hid
  · rw [h.state]
    exact List.forall_mem_cons.mpr ⟨hne, hw.imms⟩

/-! ## Writing -/

/-- Of the entries with the same key the last one is written. -/
def LastIn (data : List Entry) (x : Entry) : Prop :=
  (data.filter fun y => y.1 = x.1).getLast? = some x

omit [Platform] in
theorem LastIn.mem {data : List Entry} {x : Entry} (h : LastIn data x) : x ∈ data :=
  List.mem_of_mem_filter (List.mem_of_getLast? h)

omit [Platform] in
theorem nextTs_eq {ts ts' : UInt64} (h : nextTs ts = .ok ts') : ts' = ts + 1 := by
  unfold nextTs at h
  split at h
  · exact (Except.ok.inj h).symm
  · cases h

omit [Platform] in
theorem lt_of_nextTs {ts ts' : UInt64} (h : nextTs ts = .ok ts') : ts < ts' := by
  unfold nextTs at h
  split at h
  · rename_i hlt
    cases h
    have hadd : (ts + 1).toNat = ts.toNat + 1 := by
      rw [UInt64.toNat_add]
      exact Nat.mod_eq_of_lt hlt
    rw [UInt64.lt_iff_toNat_lt]
    omega
  · cases h

/-- The timestamp of a write lies above all that is stored. -/
theorem Steady.lt_of_nextTs (h : e.Steady contents) {ts : UInt64}
    (hts : nextTs e.latestCommitTs = .ok ts) {x : Entry} (hx : e.state.HasVersion contents x) :
    x.1.ts < ts := (h.stamps x hx).trans_lt (LsmStorageInner.lt_of_nextTs hts)

variable {data : List Entry} {d : Disk}

omit [Platform] in
/-- A write replaces no memtable. -/
theorem memtable_ids_afterPut (e : LsmStorageInner) (data : List Entry) (d : Disk) :
    (e.afterPut data d).state.memtables.map MemTable.id = e.state.memtables.map MemTable.id := by
  unfold LsmStorageState.memtables afterPut setMemtable
  simp only [List.map_cons, MemTable.insertAll_id]

omit [Platform] in
theorem ids_afterPut (e : LsmStorageInner) (data : List Entry) (d : Disk) :
    (e.afterPut data d).state.ids = e.state.ids := by
  unfold LsmStorageState.ids
  rw [memtable_ids_afterPut]
  rfl

omit [Platform] in
/-- A write changes the first container only. -/
theorem containers_afterPut (e : LsmStorageInner) (data : List Entry) (d : Disk)
    (contents : ℕ → List Entry) : ∃ rest,
      e.state.containers contents = e.state.memtable.map.entries :: rest ∧
      (e.afterPut data d).state.containers contents =
        (e.state.memtable.map.insertAll data).entries :: rest := by
  refine ⟨_, rfl, ?_⟩
  unfold LsmStorageState.containers LsmStorageState.memtables afterPut setMemtable
  simp only [List.map_cons, MemTable.insertAll_map]
  rfl

omit [Platform] in
/-- **A write adds its batch.** -/
theorem hasVersion_afterPut
    (hnew : ∀ x, e.state.HasVersion contents x → x.1 ∉ runKeys data) {x : Entry} :
    (e.afterPut data d).state.HasVersion contents x ↔
      LastIn data x ∨ e.state.HasVersion contents x := by
  obtain ⟨rest, hold, hput⟩ := containers_afterPut e data d contents
  unfold HasVersion at hnew ⊢
  rw [hold] at hnew
  rw [hput, hold, List.exists_mem_cons_iff, List.exists_mem_cons_iff, SkipMap.mem_insertAll,
    ← or_assoc]
  refine or_congr_left (or_congr_right (and_iff_right_of_imp fun hx => ?_))
  exact hnew x ⟨_, List.mem_cons_self, hx⟩

theorem consistent_afterPut (hc : e.state.Consistent contents)
    (hnew : ∀ x, e.state.HasVersion contents x → x.1 ∉ runKeys data)
    (hfits : ∀ x ∈ data, LengthsFit x) : (e.afterPut data d).state.Consistent contents := by
  obtain ⟨rest, hold, hput⟩ := containers_afterPut e data d contents
  refine ⟨hc.tables, ?_, hc.levels, ?_, by rw [ids_afterPut]; exact hc.nodup⟩
  · have hfits' := hc.fits
    rw [hold] at hfits'
    obtain ⟨hmem, hrest⟩ := List.forall_mem_cons.mp hfits'
    rw [hput]
    refine List.forall_mem_cons.mpr ⟨fun x hx => ?_, hrest⟩
    rcases SkipMap.mem_insertAll.mp hx with hx | ⟨-, hx⟩
    · exact hfits x (LastIn.mem hx)
    · exact hmem x hx
  · have hdis := hc.disjoint
    rw [hold] at hdis
    obtain ⟨hmem, hrest⟩ := List.pairwise_cons.mp hdis
    rw [hput]
    refine List.pairwise_cons.mpr ⟨fun l hl k hk hkl => ?_, hrest⟩
    obtain ⟨v, hv⟩ := mem_runKeys.mp hk
    rcases SkipMap.mem_insertAll.mp hv with hx | ⟨-, hx⟩
    · obtain ⟨w, hw'⟩ := mem_runKeys.mp hkl
      have hmem : (k, v) ∈ data := LastIn.mem hx
      refine hnew (k, w) ⟨l, ?_, hw'⟩ (mem_runKeys.mpr ⟨v, hmem⟩)
      rw [hold]
      exact List.mem_cons_of_mem _ hl
    · exact hmem l hl k (fst_mem_runKeys hx) hkl

theorem wellFormed_afterPut (hw : e.state.WellFormed contents)
    (hnew : ∀ x, e.state.HasVersion contents x → x.1 ∉ runKeys data)
    (henc : ∀ x ∈ data, Encodable x) : (e.afterPut data d).state.WellFormed contents := by
  have hfits : ∀ x ∈ data, LengthsFit x := fun x hx => ⟨(henc x hx).key_le, (henc x hx).value_le⟩
  refine (consistent_afterPut hw.consistent hnew hfits).wellFormed ?_ (fun id hid => hw.table_ne_nil hid) hw.imms
  obtain ⟨rest, hold, hput⟩ := containers_afterPut e data d contents
  have henc' := hw.encodable
  rw [hold] at henc'
  obtain ⟨hmem, hrest⟩ := List.forall_mem_cons.mp henc'
  rw [hput]
  refine List.forall_mem_cons.mpr ⟨fun x hx => ?_, fun l hl x hx => (hrest l hl x hx).key_ne⟩
  rcases SkipMap.mem_insertAll.mp hx with hx | ⟨-, hx⟩
  · exact (henc x (LastIn.mem hx)).key_ne
  · exact (hmem x hx).key_ne

/-! ## Flushing -/

theorem Flushed.memtables {m : MemTable} {builder : SsTableBuilder} (h : Flushed e e' m builder) :
    e.state.memtables = e'.state.memtables ++ [m] := by
  unfold LsmStorageState.memtables
  rw [h.memtable, h.imms]
  rfl

/-- The id of the memtable is listed now. -/
theorem Flushed.listed {m : MemTable} {builder : SsTableBuilder} (h : Flushed e e' m builder) :
    e'.state.listedIds.Perm (m.id :: e.state.listedIds) := by
  unfold LsmStorageState.listedIds
  rw [h.l0Sstables, h.levels]
  split
  · exact List.Perm.refl _
  · rw [List.map_cons, List.flatten_cons]
    exact List.perm_middle

theorem Flushed.ids_perm {m : MemTable} {builder : SsTableBuilder} (h : Flushed e e' m builder) :
    e'.state.ids.Perm e.state.ids := by
  unfold LsmStorageState.ids
  rw [h.memtables, List.map_append, List.append_assoc]
  exact h.listed.append_left _

theorem Flushed.id_notMem {m : MemTable} {builder : SsTableBuilder} (h : Flushed e e' m builder)
    (hnodup : e.state.ids.Nodup) : m.id ∉ e.state.listedIds := by
  intro hmem
  have hdis := (List.nodup_append.mp hnodup).2.2
  refine hdis m.id (List.mem_map_of_mem ?_) m.id hmem rfl
  rw [h.memtables]
  exact List.mem_append_right _ (List.mem_singleton.mpr rfl)

/-- The table is built from what the scan of the memtable shows. -/
theorem Flushed.built_flushed {m : MemTable} {builder : SsTableBuilder} (h : Flushed e e' m builder) :
    SsTable.ofEntries e.options.blockSize m.id m.flushed = .ok (builder.build m.id) := by
  have hadd := h.flush
  rw [MemTable.flush_eq_flushed] at hadd
  simp only [SsTable.ofEntries, hadd, bind, Except.bind, pure, Except.pure]

/-- The table is built from the entries of the memtable. -/
theorem Flushed.built {m : MemTable} {builder : SsTableBuilder} (h : Flushed e e' m builder)
    (hkeys : m.KeysNonempty) : SsTable.ofEntries e.options.blockSize m.id m.map.entries =
      .ok (builder.build m.id) := by
  rw [← hkeys.flushed_eq]
  exact h.built_flushed

/-- The contents of the tables with those of a new one. -/
def withTable (contents : ℕ → List Entry) (m : MemTable) : ℕ → List Entry :=
  fun id => if id = m.id then m.flushed else contents id

omit [Platform] in
theorem withTable_of_ne {m : MemTable} {id : ℕ} (h : id ≠ m.id) (contents : ℕ → List Entry) :
    withTable contents m id = contents id := if_neg h

omit [Platform] in
theorem withTable_self (m : MemTable) (contents : ℕ → List Entry) :
    withTable contents m m.id = m.flushed := if_pos rfl

omit [Platform] in
theorem map_withTable {m : MemTable} {ids : List ℕ} (h : m.id ∉ ids) (contents : ℕ → List Entry) :
    ids.map (withTable contents m) = ids.map contents := by
  refine List.map_congr_left fun id hid => withTable_of_ne ?_ contents
  rintro rfl
  exact h hid

/-- A flush moves a container, or what the scan shows of it. -/
theorem Flushed.containers {m : MemTable} {builder : SsTableBuilder} (h : Flushed e e' m builder)
    (hid : m.id ∉ e.state.listedIds) (contents : ℕ → List Entry) : ∃ rest,
      (e.state.containers contents).Perm (m.map.entries :: rest) ∧
      (e'.state.containers (withTable contents m)).Perm (m.flushed :: rest) := by
  refine ⟨e'.state.memtables.map (fun m => m.map.entries) ++ e.state.listedIds.map contents, ?_, ?_⟩
  · unfold LsmStorageState.containers
    rw [h.memtables, List.map_append, List.append_assoc]
    exact List.perm_middle
  · unfold LsmStorageState.containers
    refine ((h.listed.map _).append_left _).trans ?_
    rw [List.map_cons, map_withTable hid, withTable_self]
    exact List.perm_middle

/-- **A flush loses nothing but what the empty key hides.** -/
theorem Flushed.hasVersion_of {m : MemTable} {builder : SsTableBuilder} (h : Flushed e e' m builder)
    (hid : m.id ∉ e.state.listedIds) {x : Entry} (hx : e'.state.HasVersion (withTable contents m) x) :
    e.state.HasVersion contents x := by
  obtain ⟨rest, hold, hnew⟩ := h.containers hid contents
  obtain ⟨l, hl, hx⟩ := hx
  rcases List.mem_cons.mp (hnew.mem_iff.mp hl) with rfl | hl
  · exact ⟨_, hold.mem_iff.mpr List.mem_cons_self, m.flushed_sublist.subset hx⟩
  · exact ⟨l, hold.mem_iff.mpr (List.mem_cons_of_mem _ hl), hx⟩

theorem Flushed.hasVersion_iff {m : MemTable} {builder : SsTableBuilder} (h : Flushed e e' m builder)
    (hkeys : m.KeysNonempty) (hid : m.id ∉ e.state.listedIds) {x : Entry} :
    e'.state.HasVersion (withTable contents m) x ↔ e.state.HasVersion contents x := by
  obtain ⟨rest, hold, hnew⟩ := h.containers hid contents
  rw [hkeys.flushed_eq] at hnew
  unfold HasVersion
  simp only [hold.mem_iff, hnew.mem_iff]

/-- **A flush keeps the state consistent.** -/
theorem Flushed.consistent {m : MemTable} {builder : SsTableBuilder} (h : Flushed e e' m builder)
    (hc : e.state.Consistent contents) (hblock : e.options.blockSize ≤ 65535) :
    e'.state.Consistent (withTable contents m) := by
  have hid := h.id_notMem hc.nodup
  obtain ⟨rest, hold, hnew⟩ := h.containers hid contents
  obtain ⟨hfits, hfits'⟩ := List.forall_mem_cons.mp fun l hl =>
    hc.fits l (hold.mem_iff.mpr hl)
  have hmade : MadeOf (builder.build m.id) m.flushed :=
    madeOf_of_built hblock h.built_flushed (m.map.sorted.sublist m.flushed_sublist)
      fun x hx => hfits x (m.flushed_sublist.subset hx)
  have hne : ∀ id ∈ e.state.listedIds, id ≠ m.id := by
    rintro id hmem rfl
    exact hid hmem
  refine ⟨?_, ?_, ?_, ?_, ?_⟩
  · intro id hmem
    rw [h.sstables]
    rcases List.mem_cons.mp (h.listed.mem_iff.mp hmem) with rfl | hmem
    · rw [withTable_self]
      exact ⟨_, AList.lookup_insert _, hmade⟩
    · rw [withTable_of_ne (hne id hmem), AList.lookup_insert_ne (hne id hmem)]
      exact hc.tables id hmem
  · intro l hl
    rcases List.mem_cons.mp (hnew.mem_iff.mp hl) with rfl | hl
    · exact fun x hx => hfits x (m.flushed_sublist.subset hx)
    · exact hfits' l hl
  · have hlevels : ∀ level ∈ e.state.levels,
        SortedRun (CompactionTask.levelRun (withTable contents m) level.2) := by
      intro level hlevel
      unfold CompactionTask.levelRun
      rw [map_withTable (fun hmem => hid (mem_listedIds.mpr (Or.inr ⟨level, hlevel, hmem⟩)))]
      exact hc.levels level hlevel
    rw [h.levels]
    split
    · exact hlevels
    · refine List.forall_mem_cons.mpr ⟨?_, hlevels⟩
      simp only [CompactionTask.levelRun, List.map_singleton, List.flatten_singleton, withTable_self]
      exact m.map.sorted.sublist m.flushed_sublist
  · obtain ⟨hdis, hrest⟩ := List.pairwise_cons.mp (hc.disjoint.perm hold)
    refine DisjointKeys.perm (List.pairwise_cons.mpr ⟨fun l hl k hk => ?_, hrest⟩) hnew.symm
    exact hdis l hl k ((m.flushed_sublist.map Prod.fst).subset hk)
  · exact h.ids_perm.nodup_iff.mpr hc.nodup

/-- **A flush keeps the invariant.** -/
theorem Flushed.wellFormed {m : MemTable} {builder : SsTableBuilder} (h : Flushed e e' m builder)
    (hw : e.state.WellFormed contents) (hblock : e.options.blockSize ≤ 65535) :
    e'.state.WellFormed (withTable contents m) := by
  have hid := h.id_notMem hw.nodup
  have himm : m ∈ e.state.immMemtables := by
    rw [h.imms]
    exact List.mem_append_right _ (List.mem_singleton.mpr rfl)
  have hkeys : m.KeysNonempty := fun x hx =>
    (hw.memtable_encodable (List.mem_cons_of_mem _ himm) hx).key_ne
  refine (h.consistent hw.consistent hblock).wellFormed ?_ ?_ ?_
  · intro l hl x hx
    obtain ⟨l', hl', hx'⟩ := h.hasVersion_of hid ⟨l, hl, hx⟩
    exact (hw.encodable l' hl' x hx').key_ne
  · intro id hmem
    rcases List.mem_cons.mp (h.listed.mem_iff.mp hmem) with rfl | hmem
    · rw [withTable_self, hkeys.flushed_eq]
      exact hw.imms m himm
    · rw [withTable_of_ne]
      · exact hw.table_ne_nil hmem
      · rintro rfl
        exact hid hmem
  · intro m' hm'
    refine hw.imms m' ?_
    rw [h.imms]
    exact List.mem_append_left _ hm'

/-! ## The steps without compaction -/

/-- What a reader may see of a write. -/
def Op.Writes (e : LsmStorageInner) : Op → Entry → Prop
  | .writeBatch batch, x => LastIn (batch.map (WriteBatchRecord.entry (e.latestCommitTs + 1))) x
  | _, _ => False

/-- Keys and values of a write fit the format. -/
def Op.Encodable : Op → Prop
  | .writeBatch batch => ∀ record ∈ batch, ∀ ts, TinyLsm.Encodable (record.entry ts)
  | _ => True

/-- Keys and values of a write fit their length fields. -/
def Op.Fits : Op → Prop
  | .writeBatch batch => ∀ record ∈ batch, record.key.length ≤ 65535 ∧ record.value.length ≤ 65535
  | _ => True

omit [Platform] in
theorem Op.Encodable.fits {op : Op} (h : op.Encodable) : op.Fits := by
  cases op with
  | writeBatch batch => exact fun record hrecord => ⟨(h record hrecord 0).key_le, (h record hrecord 0).value_le⟩
  | _ => trivial

theorem Steady.freeze {m : MemTable} (h : e.Steady contents) (hfroze : Froze e e' m) :
    e'.Steady contents where
  state := hfroze.consistent h.state h.ids
  blockSize := by
    rw [hfroze.options]
    exact h.blockSize
  ids := hfroze.ids_lt h.ids
  stamps x hx := by
    rw [hfroze.latestCommitTs]
    exact h.stamps x (hfroze.hasVersion_iff.mp hx)

theorem Steady.flush {m : MemTable} {builder : SsTableBuilder} (h : e.Steady contents)
    (hflushed : Flushed e e' m builder) : e'.Steady (withTable contents m) where
  state := hflushed.consistent h.state h.blockSize
  blockSize := by
    rw [hflushed.options]
    exact h.blockSize
  ids id hid := by
    rw [hflushed.nextSstId]
    exact h.ids id (hflushed.ids_perm.mem_iff.mp hid)
  stamps x hx := by
    rw [hflushed.latestCommitTs]
    exact h.stamps x (hflushed.hasVersion_of (hflushed.id_notMem h.state.nodup) hx)

/-- **A put keeps the engine steady and adds its batch**, from the moment on at which the timestamp of
the batch counts as committed. -/
theorem Steady.put {batch : List WriteBatchRecord} {ts : UInt64} (h : e.Steady contents)
    (hfits : (Op.writeBatch batch).Fits) (hnext : nextTs e.latestCommitTs = .ok ts) (d : Disk) :
    ({ e.afterPut (batch.map (WriteBatchRecord.entry ts)) d with
        latestCommitTs := ts } : LsmStorageInner).Steady contents ∧
      ∀ x, (e.afterPut (batch.map (WriteBatchRecord.entry ts)) d).state.HasVersion contents x ↔
        LastIn (batch.map (WriteBatchRecord.entry ts)) x ∨ e.state.HasVersion contents x := by
  have hdata : ∀ x ∈ batch.map (WriteBatchRecord.entry ts), LengthsFit x ∧ x.1.ts = ts := by
    intro x hx
    obtain ⟨record, hrecord, rfl⟩ := List.mem_map.mp hx
    exact ⟨⟨(hfits record hrecord).1, (hfits record hrecord).2⟩, rfl⟩
  have hnew : ∀ x, e.state.HasVersion contents x →
      x.1 ∉ runKeys (batch.map (WriteBatchRecord.entry ts)) := by
    intro x hx hmem
    obtain ⟨v, hv⟩ := mem_runKeys.mp hmem
    have hlt := h.lt_of_nextTs hnext hx
    rw [show x.1.ts = ts from (hdata _ hv).2] at hlt
    exact lt_irrefl _ hlt
  have hiff := fun x => hasVersion_afterPut (d := d) hnew (x := x)
  refine ⟨⟨consistent_afterPut (d := d) h.state hnew fun x hx => (hdata x hx).1, h.blockSize, ?_, ?_⟩,
    hiff⟩
  · intro id hid
    have hid : id ∈ (e.afterPut (batch.map (WriteBatchRecord.entry ts)) d).state.ids := hid
    rw [ids_afterPut] at hid
    exact h.ids id hid
  · intro x hx
    rcases (hiff x).mp hx with hx | hx
    · exact ((hdata x (LastIn.mem hx)).2).le
    · exact (h.lt_of_nextTs hnext hx).le

/-- **A write keeps the engine steady and adds its batch.** -/
theorem Steady.writeBatch {batch : List WriteBatchRecord} (h : e.Steady contents)
    (hfits : (Op.writeBatch batch).Fits) (hstep : Step e (.writeBatch batch) e') :
    e'.Steady contents ∧ ∀ x, e'.state.HasVersion contents x ↔
      (Op.writeBatch batch).Writes e x ∨ e.state.HasVersion contents x := by
  obtain ⟨ts, d, e₁, hnext, -, hfreeze, rfl⟩ := writeBatch_ok hstep
  obtain ⟨hput, hiff⟩ := h.put hfits hnext d
  obtain rfl := nextTs_eq hnext
  rcases tryFreeze_ok hfreeze with rfl | ⟨-, m, hfroze⟩
  · exact ⟨hput, hiff⟩
  · exact ⟨hput.freeze (hfroze.commit (e.latestCommitTs + 1)),
      fun x => hfroze.hasVersion_iff.trans (hiff x)⟩

theorem Sound.freeze {m : MemTable} (h : e.Sound contents) (hfroze : Froze e e' m)
    (hne : e.state.memtable.map.entries ≠ []) : e'.Sound contents :=
  (h.steady.freeze hfroze).sound (hfroze.wellFormed h.state h.ids hne)

theorem Sound.flush {m : MemTable} {builder : SsTableBuilder} (h : e.Sound contents)
    (hflushed : Flushed e e' m builder) : e'.Sound (withTable contents m) :=
  (h.steady.flush hflushed).sound (hflushed.wellFormed h.state h.blockSize)

/-- **A write keeps the invariant and adds its batch.** -/
theorem Sound.writeBatch {batch : List WriteBatchRecord} (h : e.Sound contents)
    (henc : (Op.writeBatch batch).Encodable) (hproper : (Op.writeBatch batch).Proper e)
    (hstep : Step e (.writeBatch batch) e') : e'.Sound contents ∧
      ∀ x, e'.state.HasVersion contents x ↔
        (Op.writeBatch batch).Writes e x ∨ e.state.HasVersion contents x := by
  obtain ⟨hsteady, hiff⟩ := h.steady.writeBatch henc.fits hstep
  refine ⟨hsteady.sound (hsteady.state.wellFormed ?_ ?_ ?_), hiff⟩
  · intro l hl x hx
    rcases (hiff x).mp ⟨l, hl, hx⟩ with hx | ⟨l', hl', hx⟩
    · obtain ⟨record, hrecord, rfl⟩ := List.mem_map.mp (LastIn.mem hx)
      exact (henc record hrecord _).key_ne
    · exact (h.state.encodable l' hl' x hx).key_ne
  · obtain ⟨ts, d, e₁, -, -, hfreeze, rfl⟩ := writeBatch_ok hstep
    rcases tryFreeze_ok hfreeze with rfl | ⟨-, m, hfroze⟩
    · exact fun id hid => h.state.table_ne_nil hid
    · intro id hid
      change id ∈ e₁.state.listedIds at hid
      rw [hfroze.state] at hid
      exact h.state.table_ne_nil hid
  · obtain ⟨ts, d, e₁, -, -, hfreeze, rfl⟩ := writeBatch_ok hstep
    rcases tryFreeze_ok hfreeze with rfl | ⟨hsize, m, hfroze⟩
    · exact h.state.imms
    · change ∀ m' ∈ e₁.state.immMemtables, _
      rw [hfroze.state]
      refine List.forall_mem_cons.mpr ⟨?_, h.state.imms⟩
      change (e.state.memtable.insertAll _).map.entries ≠ []
      rw [MemTable.insertAll_map, Ne, SkipMap.insertAll_eq_nil_iff, List.map_eq_nil_iff]
      rintro ⟨rfl, hempty⟩
      exact absurd (hproper.2 rfl hempty) (not_lt.mpr hsize)

end LsmStorageInner

end TinyLsm
