import TinyLsm.LsmStorage.Reopen
import TinyLsm.LsmStorage.CommitTs

/-!
# Ids over many sessions

A directory is opened again and again, with or without logs, and each time calls run on it.  `open` finds
out which ids are taken from the records of the manifest, but the active memtable of a store in which it
finds no memtable has the id 0, whatever was recorded.

`ids_distinct_iff`: the ids stay distinct and below the next one exactly when each `open` finds a memtable,
or finds that something was recorded and memtable 0 was not flushed.  The freezes and flushes of a `close`
are calls like others.
-/

namespace TinyLsm

/-! ## What the manifest has recorded -/

/-- The ids of the memtables that were made. -/
def createdIds (recs : List ManifestRecord) : List ℕ :=
  recs.filterMap fun
    | .newMemtable id => some id
    | _ => none

/-- The ids of the memtables that were flushed. -/
def flushedIds (recs : List ManifestRecord) : List ℕ :=
  recs.filterMap fun
    | .flush id => some id
    | _ => none

/-- No compaction was recorded. -/
def NoCompaction (recs : List ManifestRecord) : Prop :=
  ∀ task output, ManifestRecord.compaction task output ∉ recs

/-- What the replay of some records has added. -/
structure Replay.Adds (r r' : Replay) (recs : List ManifestRecord) : Prop where
  state : r'.state = { r.state with l0Sstables := (flushedIds recs).reverse ++ r.state.l0Sstables }
  flushed : r'.flushedMemtables = (flushedIds recs).reverse ++ r.flushedMemtables
  created : r'.allMemtables = (createdIds recs).reverse ++ r.allMemtables
  next : r.nextSstId ≤ r'.nextSstId
  lt : ∀ id ∈ createdIds recs ++ flushedIds recs, id < r'.nextSstId
  eq : recs = [] → r'.nextSstId = r.nextSstId
  pos : recs ≠ [] → 0 < r'.nextSstId

theorem Replay.records_adds {controller : CompactionController} {recs : List ManifestRecord}
    (hplain : NoCompaction recs) (r : Replay) : ∃ r', r.records controller recs = .ok r' ∧ r.Adds r' recs := by
  induction recs generalizing r with
  | nil => exact ⟨r, rfl, rfl, rfl, rfl, le_rfl, by simp [createdIds, flushedIds], fun _ => rfl, by simp⟩
  | cons rec recs ih =>
    have hrest : NoCompaction recs := fun task output hmem => hplain task output (List.mem_cons_of_mem _ hmem)
    cases rec with
    | newMemtable id =>
      obtain ⟨r', hrecords, hadds⟩ := ih hrest { r with
        nextSstId := max r.nextSstId (id + 1)
        allMemtables := id :: r.allMemtables }
      have hid : id < r'.nextSstId := (Nat.lt_succ_self id).trans_le ((le_max_right _ _).trans hadds.next)
      refine ⟨r', hrecords, hadds.state, hadds.flushed, ?_, (le_max_left _ _).trans hadds.next, ?_,
        by simp, fun _ => Nat.zero_lt_of_lt hid⟩
      · rw [hadds.created]
        simp [createdIds]
      · exact List.forall_mem_cons.mpr ⟨hid, hadds.lt⟩
    | flush id =>
      obtain ⟨r', hrecords, hadds⟩ := ih hrest { r with
        nextSstId := max r.nextSstId (id + 1)
        state := { r.state with l0Sstables := id :: r.state.l0Sstables }
        flushedMemtables := id :: r.flushedMemtables }
      have hid : id < r'.nextSstId := (Nat.lt_succ_self id).trans_le ((le_max_right _ _).trans hadds.next)
      refine ⟨r', hrecords, ?_, ?_, hadds.created, (le_max_left _ _).trans hadds.next, fun x hx => ?_,
        by simp, fun _ => Nat.zero_lt_of_lt hid⟩
      · rw [hadds.state]
        simp [flushedIds]
      · rw [hadds.flushed]
        simp [flushedIds]
      · rcases List.mem_append.mp hx with hx | hx
        · exact hadds.lt x (List.mem_append_left _ hx)
        · rcases List.mem_cons.mp hx with rfl | hx
          · exact hid
          · exact hadds.lt x (List.mem_append_right _ hx)
    | compaction task output => exact absurd List.mem_cons_self (hplain task output)

namespace LsmStorageInner

open LsmStorageState

variable [Platform] {options : LsmStorageOptions} {e₀ e e' : LsmStorageInner} {d d' : Disk}
  {recs : List ManifestRecord}

/-! ## What opening does to the ids -/

theorem openTables_like {ids : List ℕ} {m m' : SstMap} (h : (openTables m ids).exec d = (.ok m', d')) :
    d.Like d' := by
  induction ids generalizing m d with
  | nil =>
    cases h
    exact .refl _
  | cons a ids ih =>
    rw [openTables, Effect.exec_bind_eq_ok_iff] at h
    obtain ⟨file, d₁, hfile, h⟩ := h
    obtain ⟨-, rest, rfl⟩ := FileObject.openFile_eq_ok hfile
    rw [Effect.exec_bind_eq_ok_iff] at h
    obtain ⟨t, d₂, hlift, h⟩ := h
    rw [Effect.exec_lift, Prod.mk.injEq] at hlift
    obtain ⟨-, rfl⟩ := hlift
    have hread : d.Like { d with faults := rest } := ⟨rfl, rfl, rfl⟩
    exact hread.trans (ih h)

theorem mapM_recoverFromWal_ids {ids : List ℕ} {ms : List MemTable}
    (h : (ids.mapM MemTable.recoverFromWal : DiskEffect (List MemTable)).exec d = (.ok ms, d')) :
    ms.map MemTable.id = ids ∧ d.Like d' := by
  induction ids generalizing d ms with
  | nil =>
    cases h
    exact ⟨rfl, .refl _⟩
  | cons id ids ih =>
    rw [List.mapM_cons, Effect.exec_bind_eq_ok_iff] at h
    obtain ⟨m, d₁, hm, h⟩ := h
    rw [Effect.exec_bind_eq_ok_iff] at h
    obtain ⟨ms', d₂, hms, hret⟩ := h
    cases hret
    obtain ⟨hids, hlike⟩ := ih hms
    obtain ⟨-, -, -, hid, -⟩ := recoverFromWal_eq_ok hm
    exact ⟨by rw [List.map_cons, hid, hids], (recoverFromWal_like hm).trans hlike⟩

/-- The memtables that are read from logs have the ids of the logs. -/
theorem recoverMemtables_ids {s s' : LsmStorageState MemTable} {enableWal : Bool} {ids : List ℕ}
    (himms : s.immMemtables = []) (h : (recoverMemtables s enableWal ids).exec d = (.ok s', d')) :
    s'.memtables.map MemTable.id =
        (if enableWal = true ∧ ids ≠ [] then ids else s.memtables.map MemTable.id) ∧
      s'.listedIds = s.listedIds ∧ d.Like d' := by
  cases ids with
  | nil =>
    cases h
    rw [if_neg (by simp)]
    exact ⟨rfl, rfl, .refl _⟩
  | cons active imms =>
    cases enableWal with
    | false =>
      cases h
      rw [if_neg (by simp)]
      exact ⟨rfl, rfl, .refl _⟩
    | true =>
      rw [recoverMemtables, if_pos rfl, Effect.exec_bind_eq_ok_iff] at h
      obtain ⟨m, d₁, hm, h⟩ := h
      rw [Effect.exec_bind_eq_ok_iff] at h
      obtain ⟨ms, d₂, hms, hret⟩ := h
      cases hret
      obtain ⟨-, -, -, hid, -⟩ := recoverFromWal_eq_ok hm
      obtain ⟨hids, hlike⟩ := mapM_recoverFromWal_ids hms
      rw [if_pos ⟨rfl, List.cons_ne_nil _ _⟩]
      unfold memtables
      rw [himms, List.nil_append, List.map_cons, hid, hids]
      exact ⟨rfl, rfl, (recoverFromWal_like hm).trans hlike⟩

/-- `open` finds a memtable that was not flushed, and reads its log. -/
def FindsMemtable (options : LsmStorageOptions) (recs : List ManifestRecord) : Prop :=
  options.enableWal = true ∧ ∃ id ∈ createdIds recs, id ∉ flushedIds recs

/-- **The ids that `open` makes**: those of the tables are the flushed ones, and those of the memtables the
others that were recorded, or else 0. -/
theorem openStore_ids (hplain : NoCompaction recs) (hmanifest : d.manifest = some recs)
    (h : (openStore options).exec d = (.ok e, d')) : ∃ ids,
      (FindsMemtable options recs ∧ ids = (createdIds recs).reverse.filter (· ∉ flushedIds recs) ∨
        ¬FindsMemtable options recs ∧ ids = [0]) ∧
      e.state.memtables.map MemTable.id = ids ∧ e.state.listedIds = (flushedIds recs).reverse ∧
      (∀ id ∈ createdIds recs ++ flushedIds recs, id < e.nextSstId) ∧
      (0 < e.nextSstId ↔ recs ≠ []) ∧ e.disk.manifest = some recs := by
  obtain ⟨r, s, d₁, d₂, sstables, hreplay, hsame, -, -, hmemtables, htables, rfl⟩ :=
    openStore_some hmanifest h
  obtain ⟨r', hreplay', hadds⟩ : ∃ r', (Replay.init options).records options.compactionOptions recs = .ok r' ∧
      (Replay.init options).Adds r' recs := Replay.records_adds hplain _
  obtain rfl := Except.ok.inj (hreplay'.symm.trans hreplay)
  have hstate := hadds.state
  have himms : r'.state.immMemtables = [] := by
    rw [hstate]
    rfl
  obtain ⟨hids, hlisted, hlike⟩ := recoverMemtables_ids himms hmemtables
  have hflushed : r'.flushedMemtables = (flushedIds recs).reverse :=
    hadds.flushed.trans (List.append_nil _)
  have hunflushed : r'.unflushed = (createdIds recs).reverse.filter (· ∉ flushedIds recs) := by
    unfold Replay.unflushed
    rw [hflushed, hadds.created, show (Replay.init options).allMemtables = [] from rfl, List.append_nil]
    simp only [List.mem_reverse]
  have hfinds : (options.enableWal = true ∧ r'.unflushed ≠ []) ↔ FindsMemtable options recs := by
    refine and_congr_right fun _ => ?_
    rw [hunflushed, Ne, List.filter_eq_nil_iff]
    simp
  refine ⟨s.memtables.map MemTable.id, ?_, rfl, ?_, hadds.lt, ?_, ?_⟩
  · rw [hids, ← hunflushed, hstate]
    by_cases hf : FindsMemtable options recs
    · exact Or.inl ⟨hf, if_pos (hfinds.mpr hf)⟩
    · exact Or.inr ⟨hf, if_neg (mt hfinds.mp hf)⟩
  · change s.listedIds = _
    rw [hlisted, hstate]
    have hnone : (Replay.init options).state.listedIds = [] := listedIds_create _ _
    unfold listedIds at hnone ⊢
    rw [List.append_assoc, hnone, List.append_nil]
  · refine ⟨fun hpos hnil => ?_, hadds.pos⟩
    rw [hadds.eq hnil] at hpos
    exact lt_irrefl _ hpos
  · change d'.manifest = _
    rw [(hlike.trans (openTables_like htables)).manifest, hsame, hmanifest]

/-- **When `open` keeps the ids apart**: it finds a memtable, or memtable 0 is not taken. -/
def KeepsApart (options : LsmStorageOptions) (recs : List ManifestRecord) : Prop :=
  FindsMemtable options recs ∨ recs ≠ [] ∧ 0 ∉ flushedIds recs

/-! ## The invariant -/

/-- The manifest has recorded each id once, and the memtables were not flushed. -/
structure Registered (e : LsmStorageInner) (recs : List ManifestRecord) : Prop where
  manifest : e.disk.manifest = some recs
  plain : NoCompaction recs
  created : (createdIds recs).Nodup
  flushed : (flushedIds recs).Nodup
  lt : ∀ id ∈ createdIds recs ++ flushedIds recs, id < e.nextSstId
  memtables : ∀ m ∈ e.state.memtables, m.id ∉ flushedIds recs

omit [Platform] in
theorem Registered.mem_unflushed (h : e.Registered recs) :
    ((createdIds recs).reverse.filter (· ∉ flushedIds recs)).Nodup ∧
      ∀ id ∈ (createdIds recs).reverse.filter (· ∉ flushedIds recs), id ∈ createdIds recs ∧ id ∉ flushedIds recs := by
  refine ⟨(List.nodup_reverse.mpr h.created).filter _, fun id hid => ?_⟩
  rw [List.mem_filter, List.mem_reverse, decide_eq_true_iff] at hid
  exact hid

/-- **An `open` keeps the ids distinct exactly when it keeps them apart.** -/
theorem Registered.numbered_iff (h : e.Registered recs)
    (hopen : (openStore options).exec e.disk = (.ok e', d')) : e'.Numbered ↔ KeepsApart options recs := by
  obtain ⟨ids, hcase, hmemtables, hlisted, hlt, hpos, -⟩ := openStore_ids h.plain h.manifest hopen
  have hids : e'.state.ids = ids ++ (flushedIds recs).reverse := by
    unfold LsmStorageState.ids
    rw [hmemtables, hlisted]
  have hflushed := List.nodup_reverse.mpr h.flushed
  rcases hcase with ⟨hfinds, rfl⟩ | ⟨hnone, rfl⟩
  · obtain ⟨hnodup, hmem⟩ := h.mem_unflushed
    refine iff_of_true ⟨?_, fun id hid => ?_⟩ (Or.inl hfinds)
    · rw [hids]
      refine List.nodup_append.mpr ⟨hnodup, hflushed, fun id hid id' hid' heq => ?_⟩
      exact (hmem id hid).2 (heq ▸ List.mem_reverse.mp hid')
    · rw [hids] at hid
      rcases List.mem_append.mp hid with hid | hid
      · exact hlt id (List.mem_append_left _ (hmem id hid).1)
      · exact hlt id (List.mem_append_right _ (List.mem_reverse.mp hid))
  · -- The active memtable has the id 0.
    have hzero : e'.Numbered ↔ 0 ∉ flushedIds recs ∧ 0 < e'.nextSstId := by
      constructor
      · intro hnumbered
        have hnodup := hnumbered.nodup
        rw [hids] at hnodup
        refine ⟨fun hmem => (List.nodup_cons.mp hnodup).1 (List.mem_reverse.mpr hmem), ?_⟩
        exact hnumbered.lt 0 (by rw [hids]; exact List.mem_cons_self)
      · rintro ⟨hnot, hlt₀⟩
        refine ⟨?_, ?_⟩
        · rw [hids]
          exact List.nodup_cons.mpr ⟨mt List.mem_reverse.mp hnot, hflushed⟩
        · rw [hids]
          exact List.forall_mem_cons.mpr
            ⟨hlt₀, fun id hid => hlt id (List.mem_append_right _ (List.mem_reverse.mp hid))⟩
    rw [hzero, hpos, and_comm]
    exact (or_iff_right hnone).symm

theorem Registered.reopen (h : e.Registered recs) (hopen : (openStore options).exec e.disk = (.ok e', d'))
    (hapart : KeepsApart options recs) : e'.Registered recs := by
  obtain ⟨ids, hcase, hmemtables, -, hlt, -, hmanifest⟩ := openStore_ids h.plain h.manifest hopen
  refine ⟨hmanifest, h.plain, h.created, h.flushed, hlt, fun m hm => ?_⟩
  have hid : m.id ∈ ids := hmemtables ▸ List.mem_map_of_mem hm
  rcases hcase with ⟨-, rfl⟩ | ⟨hnone, rfl⟩
  · exact (h.mem_unflushed.2 _ hid).2
  · rw [List.mem_singleton.mp hid]
    exact (hapart.resolve_left hnone).2

/-! ## The calls -/

omit [Platform] in
theorem createdIds_append (recs recs' : List ManifestRecord) :
    createdIds (recs ++ recs') = createdIds recs ++ createdIds recs' := List.filterMap_append

omit [Platform] in
theorem flushedIds_append (recs recs' : List ManifestRecord) :
    flushedIds (recs ++ recs') = flushedIds recs ++ flushedIds recs' := List.filterMap_append

omit [Platform] in
/-- A call that records nothing. -/
theorem Registered.congr (h : e.Registered recs) (hmanifest : e'.disk.manifest = e.disk.manifest)
    (hnext : e.nextSstId ≤ e'.nextSstId)
    (hmemtables : e'.state.memtables.map MemTable.id = e.state.memtables.map MemTable.id) :
    e'.Registered recs := by
  refine ⟨hmanifest.trans h.manifest, h.plain, h.created, h.flushed, fun id hid => (h.lt id hid).trans_le hnext,
    fun m hm => ?_⟩
  have hid : m.id ∈ e.state.memtables.map MemTable.id := hmemtables ▸ List.mem_map_of_mem hm
  obtain ⟨m', hm', heq⟩ := List.mem_map.mp hid
  exact heq ▸ h.memtables m' hm'

omit [Platform] in
theorem Registered.freeze {m : MemTable} (h : e.Registered recs) (hfroze : Froze e e' m) :
    e'.Registered (recs ++ [.newMemtable e.nextSstId]) := by
  have hcreated : createdIds (recs ++ [.newMemtable e.nextSstId]) = createdIds recs ++ [e.nextSstId] :=
    createdIds_append _ _
  have hflushed : flushedIds (recs ++ [.newMemtable e.nextSstId]) = flushedIds recs :=
    (flushedIds_append _ _).trans (List.append_nil _)
  have hnew : ∀ id ∈ createdIds recs ++ flushedIds recs, id ≠ e.nextSstId := fun id hid => (h.lt id hid).ne
  refine ⟨?_, ?_, ?_, by rw [hflushed]; exact h.flushed, ?_, ?_⟩
  · rw [hfroze.manifest, h.manifest]
    rfl
  · intro task output hmem
    rcases List.mem_append.mp hmem with hmem | hmem
    · exact h.plain task output hmem
    · cases List.mem_singleton.mp hmem
  · rw [hcreated]
    refine List.nodup_append.mpr ⟨h.created, List.nodup_singleton _, fun id hid id' hid' => ?_⟩
    rw [List.mem_singleton.mp hid']
    exact hnew id (List.mem_append_left _ hid)
  · rw [hcreated, hflushed, hfroze.nextSstId]
    intro id hid
    rcases List.mem_append.mp hid with hid | hid
    · rcases List.mem_append.mp hid with hid | hid
      · exact (h.lt id (List.mem_append_left _ hid)).trans (Nat.lt_succ_self _)
      · rw [List.mem_singleton.mp hid]
        exact Nat.lt_succ_self _
    · exact (h.lt id (List.mem_append_right _ hid)).trans (Nat.lt_succ_self _)
  · rw [hflushed]
    unfold LsmStorageState.memtables
    rw [hfroze.state]
    refine List.forall_mem_cons.mpr ⟨fun hmem => ?_, h.memtables⟩
    rw [hfroze.id] at hmem
    exact hnew _ (List.mem_append_right _ hmem) rfl

theorem Registered.flush {m : MemTable} {builder : SsTableBuilder} (h : e.Registered recs)
    (hids : e.Numbered) (hflushed : Flushed e e' m builder) : e'.Registered (recs ++ [.flush m.id]) := by
  have hcreated : createdIds (recs ++ [.flush m.id]) = createdIds recs :=
    (createdIds_append _ _).trans (List.append_nil _)
  have hrecorded : flushedIds (recs ++ [.flush m.id]) = flushedIds recs ++ [m.id] := flushedIds_append _ _
  have hmem : m ∈ e.state.memtables := by
    rw [hflushed.memtables]
    exact List.mem_append_right _ (List.mem_singleton_self _)
  have hnodup := (List.nodup_append.mp hids.nodup).1
  rw [hflushed.memtables, List.map_append] at hnodup
  refine ⟨?_, ?_, by rw [hcreated]; exact h.created, ?_, ?_, fun m' hm' => ?_⟩
  · rw [hflushed.manifest, h.manifest]
    rfl
  · intro task output hin
    rcases List.mem_append.mp hin with hin | hin
    · exact h.plain task output hin
    · cases List.mem_singleton.mp hin
  · rw [hrecorded]
    refine List.nodup_append.mpr ⟨h.flushed, List.nodup_singleton _, fun id hid id' hid' heq => ?_⟩
    rw [heq, List.mem_singleton.mp hid'] at hid
    exact h.memtables m hmem hid
  · rw [hcreated, hrecorded, hflushed.nextSstId]
    intro id hid
    rcases List.mem_append.mp hid with hid | hid
    · exact h.lt id (List.mem_append_left _ hid)
    · rcases List.mem_append.mp hid with hid | hid
      · exact h.lt id (List.mem_append_right _ hid)
      · rw [List.mem_singleton.mp hid]
        exact hids.lt _ (List.mem_append_left _ (List.mem_map_of_mem hmem))
  · rw [hrecorded, List.mem_append, List.mem_singleton, not_or]
    refine ⟨h.memtables m' (hflushed.memtables ▸ List.mem_append_left _ hm'), ?_⟩
    exact (List.nodup_append.mp hnodup).2.2 _ (List.mem_map_of_mem hm') _ (List.mem_singleton_self _)

/-- **One call keeps the records in step with the ids.** -/
theorem Registered.step {op : Op} (h : e.Registered recs) (hids : e.Numbered) (hstep : Step e op e') :
    ∃ recs', e'.Registered recs' := by
  cases op with
  | writeBatch batch =>
    obtain ⟨ts, d, e₁, -, hlogged, hfreeze, rfl⟩ := writeBatch_ok hstep
    have hput : (e.afterPut (batch.map (WriteBatchRecord.entry ts)) d).Registered recs :=
      h.congr hlogged.manifest le_rfl (memtable_ids_afterPut e _ d)
    suffices hafter : ∃ recs', e₁.Registered recs' from
      hafter.imp fun recs' h' => ⟨h'.manifest, h'.plain, h'.created, h'.flushed, h'.lt, h'.memtables⟩
    rcases tryFreeze_ok hfreeze with rfl | ⟨-, m, hfroze⟩
    · exact ⟨recs, hput⟩
    · exact ⟨_, hput.freeze hfroze⟩
  | freeze =>
    obtain ⟨m, hfroze⟩ := forceFreezeMemtable_ok hstep
    exact ⟨_, h.freeze hfroze⟩
  | flush =>
    rcases forceFlushNextImmMemtable_ok hstep with ⟨-, rfl⟩ | ⟨m, builder, hflushed⟩
    · exact ⟨recs, h⟩
    · exact ⟨_, h.flush hids hflushed⟩
  | compact =>
    rcases triggerCompaction_ok hstep with ⟨-, rfl⟩ | ⟨task, output, s, removed, hcompacted⟩
    · exact ⟨recs, h⟩
    · obtain ⟨d, hcompact, -, hmanifest, -⟩ := hcompacted.compact
      obtain ⟨l, -, hwrote⟩ := compact_streams hcompact
      refine ⟨recs, h.congr (hmanifest.trans hwrote.files.2.1) hcompacted.takesIds.next ?_⟩
      unfold LsmStorageState.memtables
      rw [hcompacted.state, CompactionController.applyCompactionResult_frame hcompacted.apply]
  | fullCompact =>
    obtain ⟨level₁, newSsts, hfull⟩ := forceFullCompaction_ok hstep
    obtain ⟨d, hcompact, -, hmanifest, -⟩ := hfull.compact
    obtain ⟨l, -, hwrote⟩ := compact_streams hcompact
    refine ⟨recs, h.congr (hmanifest.trans hwrote.files.2.1) hfull.takesIds.next ?_⟩
    unfold LsmStorageState.memtables
    rw [hfull.state]

theorem Fresh.registered (h : Fresh options e) : ∃ recs, e.Registered recs := by
  obtain ⟨m, hnew⟩ := h.isNew
  have hnext : ∀ id ∈ [0], id < e.nextSstId := by
    rw [hnew.nextSstId]
    decide
  refine ⟨_, hnew.manifest, ?_, ?_, ?_, ?_, ?_⟩
  all_goals cases options.enableWal <;> simp_all [NoCompaction, createdIds, flushedIds]

/-! ## Runs of sessions -/

/-- A call, or the directory is opened again. -/
inductive StoreOp where
  | call (op : Op)
  | reopen (options : LsmStorageOptions)

/-- It succeeds and leaves the engine `e'`. -/
def StoreStep (e : LsmStorageInner) : StoreOp → LsmStorageInner → Prop
  | .call op, e' => Step e op e'
  | .reopen options, e' => ∃ d', (openStore options).exec e.disk = (.ok e', d')

/-- An `open` keeps the ids apart. -/
def StoreOp.Apart (e : LsmStorageInner) : StoreOp → Prop
  | .call _ => True
  | .reopen options => ∃ recs, e.disk.manifest = some recs ∧ KeepsApart options recs

variable {acts : List StoreOp} {act : StoreOp}

theorem StoreStep.unique {e₁ e₂ : LsmStorageInner} (h₁ : StoreStep e act e₁) (h₂ : StoreStep e act e₂) :
    e₁ = e₂ := by
  cases act with
  | call op => exact Step.unique h₁ h₂
  | reopen options =>
    obtain ⟨d₁, h₁⟩ := h₁
    obtain ⟨d₂, h₂⟩ := h₂
    exact Except.ok.inj (Prod.mk.inj (h₁.symm.trans h₂)).1

/-- **One step keeps the ids distinct** exactly when it keeps them apart. -/
theorem Registered.numbered_step (h : e.Registered recs) (hids : e.Numbered) (hstep : StoreStep e act e') :
    (e'.Numbered ↔ act.Apart e) ∧ (e'.Numbered → ∃ recs, e'.Registered recs) := by
  cases act with
  | call op => exact ⟨iff_of_true (hids.step hstep) trivial, fun _ => h.step hids hstep⟩
  | reopen options =>
    obtain ⟨d', hopen⟩ := hstep
    have hiff := h.numbered_iff hopen
    refine ⟨hiff.trans ⟨fun hapart => ⟨recs, h.manifest, hapart⟩, ?_⟩, fun hnumbered =>
      ⟨recs, h.reopen hopen (hiff.mp hnumbered)⟩⟩
    rintro ⟨recs', hrecs, hapart⟩
    obtain rfl := Option.some.inj (h.manifest.symm.trans hrecs)
    exact hapart

/-- **When no id is used twice**, over any number of sessions with any options: in all states of a run the
ids are distinct and below the next one exactly when each `open` of the run keeps them apart. -/
theorem ids_distinct_iff (hfresh : Fresh options e₀) (hrun : Run StoreStep e₀ acts e) :
    (∀ before after t, acts = before ++ after → Run StoreStep e₀ before t → t.Numbered) ↔
      Run (fun e act e' => act.Apart e ∧ StoreStep e act e') e₀ acts e := by
  refine hrun.forall_states_iff (fun t => ∃ recs, t.Registered recs) Numbered (fun t act => act.Apart t)
    (fun _ _ _ _ h h' => h.unique h') ?_ hfresh.registered hfresh.laid.numbered
  rintro t act u ⟨recs, h⟩ hids hstep
  exact h.numbered_step hids hstep

/-- Calls alone keep the ids apart. -/
theorem run_of_calls {ops : List Op} (hrun : Run Step e ops e') :
    Run (fun e act e' => act.Apart e ∧ StoreStep e act e') e (ops.map .call) e' := by
  induction hrun with
  | nil => exact .nil
  | snoc _ hstep ih =>
    rw [List.map_append]
    exact ih.snoc ⟨trivial, hstep⟩

end LsmStorageInner

section

attribute [local instance] shortKeyPlatform

namespace LsmStorageInner

theorem run_calls_of_afterCalls {ops : List Op} {e e' : LsmStorageInner} (h : afterCalls ops e = some e') :
    Run (fun e act e' => act.Apart e ∧ StoreStep e act e') e (ops.map .call) e' :=
  run_of_calls ((run_of_afterCalls h).mono fun _ _ _ h => h.2)

/-- A store with a log is opened again while a memtable is not flushed, which is then flushed too. -/
theorem ids_distinct_iff_small : ∃ acts e,
    acts = putBeforeAndAfterFlush.map .call ++ [.reopen loggedOptions] ++ [Op.freeze, .flush].map .call ∧
      Run StoreStep (newStore loggedOptions) acts e ∧ e.state.ids = [2, 1, 0] ∧
      ∀ before after t, acts = before ++ after → Run StoreStep (newStore loggedOptions) before t →
        t.Numbered := by
  have hsummary : ((afterCalls putBeforeAndAfterFlush (newStore loggedOptions)).bind fun e =>
      ((openStore loggedOptions).exec e.disk).1.toOption.map fun e' =>
        decide (e.disk.manifest = some [.newMemtable 0, .newMemtable 1, .flush 0] ∧
          (afterCalls [Op.freeze, .flush] e').map (fun e => e.state.ids) = some [2, 1, 0])) = some true := by
    decide +kernel
  obtain ⟨e₁, e₂, d', hfirst, hopen, hsummary⟩ := exists_opened hsummary
  obtain ⟨hmanifest, hflushed⟩ := of_decide_eq_true hsummary
  obtain ⟨e, hsecond, hids⟩ := Option.map_eq_some_iff.mp hflushed
  have hreopen : StoreStep e₁ (.reopen loggedOptions) e₂ := ⟨d', hopen⟩
  have hapart : StoreOp.Apart e₁ (.reopen loggedOptions) :=
    ⟨_, hmanifest, Or.inl ⟨rfl, 1, by decide, by decide⟩⟩
  have hrun := ((run_calls_of_afterCalls hfirst).snoc ⟨hapart, hreopen⟩).append
    (run_calls_of_afterCalls hsecond)
  exact ⟨_, e, rfl, hrun.mono fun _ _ _ h => h.2, hids,
    (ids_distinct_iff (fresh_newStore _) (hrun.mono fun _ _ _ h => h.2)).mpr hrun⟩

/-- **An id is used twice**: a store without logs is opened again after its only memtable was flushed.  The
new active memtable has the id of the table, and its flush overwrites the table. -/
theorem flush_overwrites_table : ∃ e e',
    Run StoreStep (newStore smallOptions) (oneTable.map .call ++ [.reopen smallOptions]) e ∧
      e.state.ids = [0, 0] ∧ ¬e.Numbered ∧ e.get [1] = .ok (some [7]) ∧
      Run Step e [.writeBatch [.put [2] [9]], .freeze, .flush] e' ∧ e'.get [1] = .ok none := by
  have hsummary : ((afterCalls oneTable (newStore smallOptions)).bind fun e =>
      ((openStore smallOptions).exec e.disk).1.toOption.map fun e' =>
        decide (e'.state.ids = [0, 0] ∧ e'.get [1] = .ok (some [7]) ∧
          (afterCalls [.writeBatch [.put [2] [9]], .freeze, .flush] e').map
            (fun e => decide (e.get [1] = .ok none)) = some true)) = some true := by
    decide +kernel
  obtain ⟨e₁, e₂, d', hfirst, hopen, hsummary⟩ := exists_opened hsummary
  obtain ⟨hids, hget, hoverwritten⟩ := of_decide_eq_true hsummary
  obtain ⟨e₃, hsecond, hnone⟩ := Option.map_eq_some_iff.mp hoverwritten
  have hreopen : StoreStep e₁ (.reopen smallOptions) e₂ := ⟨d', hopen⟩
  have hcalls : Run StoreStep (newStore smallOptions) (oneTable.map .call) e₁ :=
    (run_calls_of_afterCalls hfirst).mono fun _ _ _ h => h.2
  refine ⟨e₂, e₃, hcalls.snoc hreopen, hids, fun hnumbered => ?_, hget,
    (run_of_afterCalls hsecond).mono fun _ _ _ h => h.2,
    of_decide_eq_true hnone⟩
  have hnodup := hnumbered.nodup
  rw [hids] at hnodup
  exact absurd hnodup (by decide)

end LsmStorageInner

end

end TinyLsm
