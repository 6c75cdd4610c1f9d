import TinyLsm.LsmStorage.State
import TinyLsm.LsmIterator
import TinyLsm.Iterators.MergeIterator
import TinyLsm.Iterators.TwoMergeIterator
import TinyLsm.Iterators.ConcatIterator

/-!
# Reading the store (`get_with_ts` and `scan_with_ts` of `lsm_storage.rs`)

Both read paths merge the memtables, the L0 tables and the levels, and both leave out what cannot
matter: tables outside the range or rejected by a bloom filter, entries below the lower bound.

`LsmStorageState.Holds s contents` says what the containers of a state hold, and `sources` lists
their contents from the newest to the oldest.  A version is stored when the earliest source that
has its key has it (`EarliestIn`), and a reader sees the newest stored version of a key that is not
above its timestamp (`Newest`).  The results are

* `scanWithTs_spec` --- a scan hands out exactly what its reader sees in the range;
* `getWithTs_eq` --- a lookup returns exactly what its reader sees at the key.

The argument is the same for both: at the keys that matter the runs that are merged, after everything
was left out, decide what the sources decide (`Pruned`).
-/

namespace TinyLsm

/-- `range_overlap`. -/
def rangeOverlap (userBegin userEnd : Bound Bytes) (tableBegin tableEnd : Key) : Bool :=
  (match userEnd with
    | .excluded key => !(key ≤ tableBegin.keyRef)
    | .included key => !(key < tableBegin.keyRef)
    | .unbounded => true) &&
  match userBegin with
    | .excluded key => !(key ≥ tableEnd.keyRef)
    | .included key => !(key > tableEnd.keyRef)
    | .unbounded => true

/-- `key_within`. -/
def keyWithin (userKey : Bytes) (tableBegin tableEnd : Key) : Bool :=
  tableBegin.keyRef ≤ userKey ∧ userKey ≤ tableEnd.keyRef

/-- `LsmIteratorInner`. -/
abbrev LsmIteratorInner :=
  TwoMergeIterator (TwoMergeIterator (MergeIterator MemTableIterator) (MergeIterator SsTableIterator))
    (MergeIterator SstConcatIterator)

namespace LsmStorageState

open StorageIterator

variable [Platform]

/-- `for id in ids { let table = sstables[id].clone(); if keep(table) { out.push(use(table)?) } }`. -/
def collectTables {M α : Type} (s : LsmStorageState M) (keep : SsTable → Outcome Bool)
    (use : SsTable → Outcome α) : List ℕ → Outcome (List α)
  | [] => .ok []
  | id :: ids => do
    let table ← s.table id
    if ← keep table then
      let a ← use table
      return a :: (← collectTables s keep use ids)
    else collectTables s keep use ids

/-- `for (_, ids) in levels { out.push(use(ids)?) }`. -/
def collectLevels {α : Type} (use : List ℕ → Outcome α) : List (ℕ × List ℕ) → Outcome (List α)
  | [] => .ok []
  | level :: levels => do
    let a ← use level.2
    return a :: (← collectLevels use levels)

/-- An iterator placed at a lower bound.  A seek stops before the versions of its key, so an
excluded key is skipped by hand. -/
def seekLower {I : Type} [StorageIterator I Key] (lower : Bound Bytes) (seekToKey : Key → Outcome I)
    (seekToFirst : Outcome I) : Outcome I :=
  match lower with
  | .included key => seekToKey ⟨key, tsRangeBegin⟩
  | .excluded key => do
    let iter ← seekToKey ⟨key, tsRangeBegin⟩
    (LsmIterator.skipWhile (fun e => e.1.keyRef = key) iter).result
  | .unbounded => seekToFirst

/-- `scan_with_ts`. -/
def scanWithTs (s : LsmStorageState MemTable) (lower upper : Bound Bytes) (readTs : UInt64) :
    Outcome (FusedIterator (LsmIterator LsmIteratorInner)) := do
  let memtableIter := MergeIterator.create
    ((s.memtable :: s.immMemtables).map fun m => m.scan lower upper)
  let keep := fun t : SsTable => (.ok (rangeOverlap lower upper t.firstKey t.lastKey) : Outcome Bool)
  let tableIters ← s.collectTables keep
    (fun t => seekLower lower (SsTableIterator.createAndSeekToKey t)
      (SsTableIterator.createAndSeekToFirst t)) s.l0Sstables
  let levelIters ← collectLevels (fun ids => do
    let ssts ← s.collectTables keep .ok ids
    seekLower lower (SstConcatIterator.createAndSeekToKey ssts)
      (SstConcatIterator.createAndSeekToFirst ssts)) s.levels
  let iter := TwoMergeIterator.create
    (TwoMergeIterator.create memtableIter (MergeIterator.create tableIters))
    (MergeIterator.create levelIters)
  return FusedIterator.new (← LsmIterator.new iter upper readTs)

/-- The test `keep_table` of `get_with_ts`. -/
def keepTable (key : Bytes) (t : SsTable) : Outcome Bool :=
  if keyWithin key t.firstKey t.lastKey then
    match t.bloom with
    | some bloom => bloom.mayContain (Platform.fingerprint32 key)
    | none => .ok true
  else .ok false

/-- `get_with_ts`. -/
def getWithTs (s : LsmStorageState MemTable) (key : Bytes) (readTs : UInt64) :
    Outcome (Option Bytes) := do
  let merge1 := MergeIterator.create
    ((s.memtable :: s.immMemtables).map fun m => m.scan (.included key) (.included key))
  let l0Iters ← s.collectTables (keepTable key)
    (fun t => SsTableIterator.createAndSeekToKey t ⟨key, tsRangeBegin⟩) s.l0Sstables
  let levelIters ← collectLevels (fun ids => do
    let ssts ← s.collectTables (keepTable key) .ok ids
    SstConcatIterator.createAndSeekToKey ssts ⟨key, tsRangeBegin⟩) s.levels
  let iter : LsmIteratorInner := TwoMergeIterator.create
    (TwoMergeIterator.create merge1 (MergeIterator.create l0Iters))
    (MergeIterator.create levelIters)
  let iter ← (LsmIterator.skipWhile (fun e => e.1.keyRef = key ∧ readTs < e.1.ts) iter).result
  if isValid iter && (StorageIterator.key iter).keyRef == key && !isTombstone (value iter) then
    return some (value iter)
  else return none

/-! ## What a state holds -/

/-- The memtables have non-empty keys, every listed table holds its entries, and the tables of a
level are sorted and disjoint. -/
structure Holds (s : LsmStorageState MemTable) (contents : ℕ → List Entry) : Prop where
  memtables : ∀ m ∈ s.memtable :: s.immMemtables, m.KeysNonempty
  tables : ∀ id ∈ s.listedIds, s.TableHolds id (contents id)
  valid : ∀ level ∈ s.levels, ∀ ssts,
    List.Forall₂ (fun id t => s.sstables.lookup id = some t) level.2 ssts → SstsValid ssts

/-- The contents of the containers, newest first. -/
def sources (s : LsmStorageState MemTable) (contents : ℕ → List Entry) : List (List Entry) :=
  ((s.memtable :: s.immMemtables).map fun m => m.map.entries) ++
    (s.l0Sstables.map contents ++ s.levels.map fun level => (level.2.map contents).flatten)

/-- A stored version: of several sources that have the key the newest one counts. -/
def Stored (s : LsmStorageState MemTable) (contents : ℕ → List Entry) (e : Entry) : Prop :=
  EarliestIn (s.sources contents) e

end LsmStorageState

/-! ## Leaving entries out -/

/-- The runs `ls` are the runs `srcs` without some entries whose keys are outside `p`, and what
stays satisfies `q`. -/
structure Pruned (p q : Bytes → Prop) (srcs ls : List (List Entry)) : Prop where
  agrees : ∀ e : Entry, p e.1.keyRef → (EarliestIn ls e ↔ EarliestIn srcs e)
  sorted : ∀ l ∈ ls, SortedRun l
  keys : ∀ l ∈ ls, ∀ e ∈ l, q e.1.keyRef

namespace Pruned

variable {p q : Bytes → Prop} {srcs srcs' ls ls' : List (List Entry)} {l l' : List Entry}

theorem nil : Pruned p q [] [] where
  agrees _ _ := Iff.rfl
  sorted := by simp
  keys := by simp

/-- At the keys of `p` the two lists of runs hold the same keys. -/
theorem key_iff (h : Pruned p q srcs ls) {k : Key} (hk : p k.keyRef) :
    (∃ l ∈ ls, k ∈ runKeys l) ↔ ∃ l ∈ srcs, k ∈ runKeys l := by
  rw [← exists_earliestIn_iff, ← exists_earliestIn_iff]
  exact exists_congr fun v => h.agrees (k, v) hk

theorem append (h : Pruned p q srcs ls) (h' : Pruned p q srcs' ls') :
    Pruned p q (srcs ++ srcs') (ls ++ ls') where
  agrees e he := by
    have hkeys := not_congr (h.key_iff he)
    push Not at hkeys
    rw [earliestIn_append, earliestIn_append, h.agrees e he, h'.agrees e he, hkeys]
  sorted l hl := (List.mem_append.mp hl).elim (h.sorted l) (h'.sorted l)
  keys l hl := (List.mem_append.mp hl).elim (h.keys l) (h'.keys l)

/-- A run of which some entries are left out. -/
theorem single (hl : ∀ e : Entry, p e.1.keyRef → (e ∈ l' ↔ e ∈ l)) (hs : SortedRun l')
    (hq : ∀ e ∈ l', q e.1.keyRef) : Pruned p q [l] [l'] where
  agrees e he := by
    simp only [EarliestIn, and_false, or_false]
    exact hl e he
  sorted := by simpa using hs
  keys := by simpa using hq

/-- A run that is left out. -/
theorem skip (hl : ∀ e ∈ l, ¬p e.1.keyRef) : Pruned p q [l] [] where
  agrees e he := by
    simp only [EarliestIn, and_false, or_false, false_iff]
    exact fun hmem => hl e hmem he
  sorted := by simp
  keys := by simp

/-- A run of which the keys outside `q` are left out. -/
theorem filter [DecidablePred q] (hpq : ∀ k, p k → q k) (hs : SortedRun l')
    (hl : ∀ e : Entry, p e.1.keyRef → (e ∈ l' ↔ e ∈ l)) :
    Pruned p q [l] [l'.filter fun e => q e.1.keyRef] := by
  refine single (fun e he => ?_) (hs.filter _) fun e he => by simpa using (List.mem_filter.mp he).2
  rw [List.mem_filter, hl e he]
  simpa using fun _ => hpq _ he

/-- **Merging the runs gives the stored versions of the keys of `p`.** -/
theorem mem_unionAll_iff (h : Pruned p q srcs ls) {e : Entry} (he : p e.1.keyRef) :
    e ∈ unionAll ls ↔ EarliestIn srcs e := by
  rw [mem_unionAll h.sorted, h.agrees e he]

theorem keys_unionAll (h : Pruned p q srcs ls) {e : Entry} (he : e ∈ unionAll ls) :
    q e.1.keyRef := by
  obtain ⟨l, hl, hel⟩ := ((mem_unionAll h.sorted).mp he).exists_mem
  exact h.keys l hl e hel

/-- What a reader sees of a key of `p` can be read off the merged runs. -/
theorem newest_iff (h : Pruned p q srcs ls) {k : Bytes} (hk : p k) {r : UInt64} {v : Bytes} :
    Newest (· ∈ unionAll ls) k r v ↔ Newest (EarliestIn srcs) k r v :=
  Newest.congr fun a _ ha _ => h.mem_unionAll_iff (show p a.keyRef by rwa [show a.keyRef = k from ha])

end Pruned

/-! ## Placing the iterators -/

open StorageIterator

section Seek

variable {I : Type} [StorageIterator I Key] {seekToKey : Key → Outcome I} {l : List Entry}

/-- A seek to the newest version of a key shows the entries from that key on. -/
theorem filter_rangeBegin (hs : SortedRun l) (key : Bytes) :
    (l.dropWhile fun e => e.1 < ⟨key, tsRangeBegin⟩) = l.filter fun e => key ≤ e.1.keyRef := by
  rw [hs.dropWhile_eq_filter]
  refine List.filter_congr fun e _ => ?_
  rw [decide_eq_decide, Key.rangeBegin_le_iff]

/-- **An iterator placed at a lower bound shows the entries above it.** -/
theorem seekLower_yields {seekToFirst : Outcome I} (hs : SortedRun l)
    (hkey : ∀ key, ∃ it, seekToKey key = .ok it ∧ Yields Drained it (l.dropWhile fun e => e.1 < key))
    (hfirst : ∃ it, seekToFirst = .ok it ∧ Yields Drained it l) (lower : Bound Bytes) :
    ∃ it, LsmStorageState.seekLower lower seekToKey seekToFirst = .ok it ∧
      Yields Drained it (l.filter fun e => lower.AboveLower e.1.keyRef) := by
  cases lower with
  | included key =>
    obtain ⟨it, hseek, hit⟩ := hkey ⟨key, tsRangeBegin⟩
    rw [filter_rangeBegin hs] at hit
    exact ⟨it, hseek, hit⟩
  | excluded key =>
    obtain ⟨it, hseek, hit⟩ := hkey ⟨key, tsRangeBegin⟩
    rw [filter_rangeBegin hs] at hit
    obtain ⟨it', hskip, hit'⟩ := LsmIterator.skipWhile_spec hit fun e => e.1.keyRef = key
    refine ⟨it', ?_, ?_⟩
    · simp only [LsmStorageState.seekLower, hseek, bind, Except.bind, hskip]
      rfl
    · have hge : ∀ e ∈ l.filter (fun e => decide (key ≤ e.1.keyRef)), key ≤ e.1.keyRef :=
        fun e he => by simpa using (List.mem_filter.mp he).2
      rw [dropWhile_user_eq_filter (q := fun e => decide (key < e.1.keyRef)) (hs.filter _) hge
        (by simp) (by simp), List.filter_filter] at hit'
      have hfilter : ∀ e : Entry, (decide (key < e.1.keyRef) && decide (key ≤ e.1.keyRef)) =
          decide ((Bound.excluded key).AboveLower e.1.keyRef) := by
        intro e
        rw [← Bool.decide_and, decide_eq_decide]
        exact and_iff_left_of_imp le_of_lt
      rwa [funext hfilter] at hit'
  | unbounded =>
    obtain ⟨it, hseek, hit⟩ := hfirst
    refine ⟨it, hseek, ?_⟩
    have hall : (l.filter fun e => decide ((Bound.unbounded : Bound Bytes).AboveLower e.1.keyRef)) = l :=
      List.filter_eq_self.mpr fun e _ => decide_eq_true trivial
    rwa [hall]

end Seek

/-! ## Collecting the iterators -/

namespace LsmStorageState

variable [Platform] {M : Type} {s : LsmStorageState M} {contents : ℕ → List Entry}
  {keep : SsTable → Outcome Bool} {p q : Bytes → Prop}

/-- The table `id` is listed with its entries, and when `keep` rejects it no key of `p` is in it. -/
def Kept (s : LsmStorageState M) (contents : ℕ → List Entry) (keep : SsTable → Outcome Bool)
    (p : Bytes → Prop) (id : ℕ) : Prop :=
  ∃ t b, s.sstables.lookup id = some t ∧ t.HasEntries (contents id) ∧ keep t = .ok b ∧
    (b = false → ∀ e ∈ contents id, ¬p e.1.keyRef)

/-- One iterator for each table that is kept. -/
theorem collectTables_pruned {I : Type} [StorageIterator I Key] [DecidablePred q]
    {use : SsTable → Outcome I} (hpq : ∀ k, p k → q k)
    (huse : ∀ t es, SsTable.HasEntries t es →
      ∃ it, use t = .ok it ∧ Yields Drained it (es.filter fun e => q e.1.keyRef))
    {ids : List ℕ} (h : ∀ id ∈ ids, s.Kept contents keep p id) :
    ∃ iters ls, s.collectTables keep use ids = .ok iters ∧
      List.Forall₂ (Yields Drained) iters ls ∧ Pruned p q (ids.map contents) ls := by
  induction ids with
  | nil => exact ⟨[], [], rfl, .nil, .nil⟩
  | cons id ids ih =>
    obtain ⟨⟨t, b, hlookup, ht, hkeep, hreject⟩, hids⟩ := List.forall_mem_cons.mp h
    obtain ⟨iters, ls, hrest, hyields, hpruned⟩ := ih hids
    cases b with
    | true =>
      obtain ⟨it, hit, hy⟩ := huse t _ ht
      refine ⟨it :: iters, _ :: ls, ?_, .cons hy hyields,
        (Pruned.filter hpq ht.sorted fun _ _ => Iff.rfl).append hpruned⟩
      simp only [collectTables, table_eq hlookup, hkeep, hit, hrest, bind, Except.bind, if_pos]
      rfl
    | false =>
      refine ⟨iters, ls, ?_, hyields, (Pruned.skip (hreject rfl)).append hpruned⟩
      simp only [collectTables, table_eq hlookup, hkeep, bind, Except.bind, Bool.false_eq_true,
        if_false]
      exact hrest

/-- The tables of a level that are kept still form a level. -/
theorem collectTables_kept {ids : List ℕ} (h : ∀ id ∈ ids, s.Kept contents keep p id) :
    ∃ ssts all ess, s.collectTables keep .ok ids = .ok ssts ∧
      List.Forall₂ (fun id t => s.sstables.lookup id = some t) ids all ∧ ssts.Sublist all ∧
      List.Forall₂ SsTable.HasEntries ssts ess ∧
      ∀ e : Entry, p e.1.keyRef → (e ∈ ess.flatten ↔ e ∈ (ids.map contents).flatten) := by
  induction ids with
  | nil => exact ⟨[], [], [], rfl, .nil, .slnil, .nil, fun _ _ => Iff.rfl⟩
  | cons id ids ih =>
    obtain ⟨⟨t, b, hlookup, ht, hkeep, hreject⟩, hids⟩ := List.forall_mem_cons.mp h
    obtain ⟨ssts, all, ess, hrest, hall, hsub, hess, hagree⟩ := ih hids
    cases b with
    | true =>
      refine ⟨t :: ssts, t :: all, contents id :: ess, ?_, .cons hlookup hall, hsub.cons_cons t,
        .cons ht hess, fun e he => ?_⟩
      · simp only [collectTables, table_eq hlookup, hkeep, hrest, bind, Except.bind, if_pos]
        rfl
      · rw [List.flatten_cons, List.map_cons, List.flatten_cons, List.mem_append, List.mem_append,
          hagree e he]
    | false =>
      refine ⟨ssts, t :: all, ess, ?_, .cons hlookup hall, hsub.cons t, hess, fun e he => ?_⟩
      · simp only [collectTables, table_eq hlookup, hkeep, bind, Except.bind, Bool.false_eq_true,
          if_false]
        exact hrest
      · rw [List.map_cons, List.flatten_cons, List.mem_append, ← hagree e he]
        exact (or_iff_right fun hmem => hreject rfl e hmem he).symm

/-- One iterator for each level. -/
theorem collectLevels_pruned [DecidablePred q] {place : List SsTable → Outcome SstConcatIterator}
    (hpq : ∀ k, p k → q k)
    (hplace : ∀ ssts ess, List.Forall₂ SsTable.HasEntries ssts ess → SstsValid ssts →
      ∃ it, place ssts = .ok it ∧
        Yields Drained it (ess.flatten.filter fun e => q e.1.keyRef))
    {levels : List (ℕ × List ℕ)}
    (h : ∀ level ∈ levels, ∀ id ∈ level.2, s.Kept contents keep p id)
    (hvalid : ∀ level ∈ levels, ∀ ssts,
      List.Forall₂ (fun id t => s.sstables.lookup id = some t) level.2 ssts → SstsValid ssts) :
    ∃ iters ls, collectLevels (fun ids => do
        let ssts ← s.collectTables keep .ok ids
        place ssts) levels = .ok iters ∧
      List.Forall₂ (Yields Drained) iters ls ∧
      Pruned p q (levels.map fun level => (level.2.map contents).flatten) ls := by
  induction levels with
  | nil => exact ⟨[], [], rfl, .nil, .nil⟩
  | cons level levels ih =>
    obtain ⟨hlevel, hlevels⟩ := List.forall_mem_cons.mp h
    obtain ⟨hvlevel, hvlevels⟩ := List.forall_mem_cons.mp hvalid
    obtain ⟨iters, ls, hrest, hyields, hpruned⟩ := ih hlevels hvlevels
    obtain ⟨ssts, all, ess, hssts, hall, hsub, hess, hagree⟩ := collectTables_kept hlevel
    have hv : SstsValid ssts := (hvlevel all hall).sublist hsub
    obtain ⟨it, hit, hy⟩ := hplace ssts ess hess hv
    refine ⟨it :: iters, _ :: ls, ?_, .cons hy hyields,
      (Pruned.filter hpq (sortedRun_flatten hess hv.pairwise) hagree).append hpruned⟩
    simp only [collectLevels, hssts, hit, bind, Except.bind]
    simp only [bind, Except.bind] at hrest
    rw [hrest]
    rfl

omit [Platform] in
/-- A scan of the memtables leaves out what is not in the range. -/
theorem memtables_pruned {ms : List MemTable} (h : ∀ m ∈ ms, m.KeysNonempty) {lower upper : Bound Bytes}
    (hp : ∀ k, p k ↔ lower.AboveLower k ∧ upper.BelowUpper k) (hpq : ∀ k, p k → q k) :
    ∃ ls, List.Forall₂ (Yields Drained) (ms.map fun m => m.scan lower upper) ls ∧
      Pruned p q (ms.map fun m => m.map.entries) ls := by
  induction ms with
  | nil => exact ⟨[], .nil, .nil⟩
  | cons m ms ih =>
    obtain ⟨hm, hms⟩ := List.forall_mem_cons.mp h
    obtain ⟨ls, hyields, hpruned⟩ := ih hms
    refine ⟨_ :: ls, .cons (MemTable.scan_yields hm lower upper) hyields,
      (Pruned.single (fun e he => ?_) (m.map.sorted.filter _) fun e he => hpq _ ?_).append hpruned⟩
    · rw [List.mem_filter, decide_eq_true_iff, ← hp]
      exact and_iff_left he
    · rw [hp]
      simpa using (List.mem_filter.mp he).2

/-- **The merge of both read paths** hands out, at the keys of the range, the stored versions. -/
theorem merge_pruned {s : LsmStorageState MemTable} (h : s.Holds contents) [DecidablePred q]
    {lower upper : Bound Bytes} (hp : ∀ k, p k ↔ lower.AboveLower k ∧ upper.BelowUpper k)
    (hpq : ∀ k, p k → q k) (hkept : ∀ id ∈ s.listedIds, s.Kept contents keep p id)
    (use : SsTable → Outcome SsTableIterator) (place : List SsTable → Outcome SstConcatIterator)
    (huse : ∀ t es, SsTable.HasEntries t es →
      ∃ it, use t = .ok it ∧ Yields Drained it (es.filter fun e => q e.1.keyRef))
    (hplace : ∀ ssts ess, List.Forall₂ SsTable.HasEntries ssts ess → SstsValid ssts →
      ∃ it, place ssts = .ok it ∧
        Yields Drained it (ess.flatten.filter fun e => q e.1.keyRef)) :
    ∃ l0Iters levelIters ls,
      s.collectTables keep use s.l0Sstables = .ok l0Iters ∧
      collectLevels (fun ids => do
        let ssts ← s.collectTables keep .ok ids
        place ssts) s.levels = .ok levelIters ∧
      Yields Drained
        (TwoMergeIterator.create
          (TwoMergeIterator.create
            (MergeIterator.create
              ((s.memtable :: s.immMemtables).map fun m => m.scan lower upper))
            (MergeIterator.create l0Iters))
          (MergeIterator.create levelIters)) (unionAll ls) ∧
      Pruned p q (s.sources contents) ls := by
  obtain ⟨ls₁, hy₁, hp₁⟩ := memtables_pruned h.memtables hp hpq
  obtain ⟨l0Iters, ls₂, hl0, hy₂, hp₂⟩ := collectTables_pruned hpq huse
    fun id hid => hkept id (mem_listedIds.mpr (Or.inl hid))
  obtain ⟨levelIters, ls₃, hlevels, hy₃, hp₃⟩ := collectLevels_pruned hpq hplace
    (fun level hlevel id hid => hkept id (mem_listedIds.mpr (Or.inr ⟨level, hlevel, hid⟩)))
    h.valid
  refine ⟨l0Iters, levelIters, ls₁ ++ (ls₂ ++ ls₃), hl0, hlevels, ?_, hp₁.append (hp₂.append hp₃)⟩
  have hs₁ := sortedRun_unionAll hp₁.sorted
  have hs₂ := sortedRun_unionAll hp₂.sorted
  have hs₃ := sortedRun_unionAll hp₃.sorted
  rw [unionAll_append hp₁.sorted (hp₂.append hp₃).sorted, unionAll_append hp₂.sorted hp₃.sorted,
    ← leftUnion_assoc hs₁ hs₂ hs₃]
  exact TwoMergeIterator.create_yields_drained
    (TwoMergeIterator.create_yields_drained (MergeIterator.create_yields hy₁ hp₁.sorted)
      (MergeIterator.create_yields hy₂ hp₂.sorted) hs₁ hs₂)
    (MergeIterator.create_yields hy₃ hp₃.sorted) (hs₁.leftUnion hs₂) hs₃

/-! ## The scan -/

omit [Platform] in
/-- A table is only left out of a scan when none of its keys is in the range. -/
theorem rangeOverlap_of_mem {lower upper : Bound Bytes} {first last : Key} {k : Bytes}
    (hfirst : first.keyRef ≤ k) (hlast : k ≤ last.keyRef) (hl : lower.AboveLower k)
    (hu : upper.BelowUpper k) : rangeOverlap lower upper first last = true := by
  unfold rangeOverlap
  rw [Bool.and_eq_true]
  constructor
  · cases upper with
    | included key => simpa using hfirst.trans hu
    | excluded key => simpa using hfirst.trans_lt hu
    | unbounded => rfl
  · cases lower with
    | included key => simpa using le_trans hl hlast
    | excluded key => simpa using lt_of_lt_of_le hl hlast
    | unbounded => rfl

theorem kept_of_rangeOverlap {s : LsmStorageState MemTable} (h : s.Holds contents)
    (lower upper : Bound Bytes) {id : ℕ} (hid : id ∈ s.listedIds) :
    s.Kept contents (fun t => .ok (rangeOverlap lower upper t.firstKey t.lastKey))
      (fun k => lower.AboveLower k ∧ upper.BelowUpper k) id := by
  obtain ⟨t, hlookup, ht⟩ := h.tables id hid
  refine ⟨t, _, hlookup, ht, rfl, fun hfalse e he hrange => ?_⟩
  rw [rangeOverlap_of_mem (Key.keyRef_le_of_le (ht.firstKey_le he))
    (Key.keyRef_le_of_le (ht.le_lastKey he)) hrange.1 hrange.2] at hfalse
  cases hfalse

omit [Platform] in
/-- The keys up to the end bound are a prefix of what is seen. -/
theorem mem_window {l : List Entry} (hs : SortedRun l) {upper : Bound Bytes} {r : UInt64}
    {x : Bytes × Bytes} : x ∈ LsmIterator.window upper r l ↔
      x ∈ visible isTombstone r l ∧ upper.BelowUpper x.1 := by
  unfold LsmIterator.window
  rw [(sortedRun_visible hs).takeWhile_eq_filter, List.mem_filter, decide_eq_true_iff]
  simp only [decide_eq_true_eq]
  exact fun a b hab hb => hb.mono hab.le

/-- What a reader at `r` sees: the newest version of `k` is live and has the value `v`. -/
def Sees (s : LsmStorageState MemTable) (contents : ℕ → List Entry) (r : UInt64)
    (k v : Bytes) : Prop :=
  v ≠ [] ∧ Newest (s.Stored contents) k r v

/-- A scan hands out what its reader sees in the range. -/
theorem scanWithTs_yields {s : LsmStorageState MemTable} (h : s.Holds contents)
    (lower upper : Bound Bytes) (r : UInt64) :
    ∃ it out, s.scanWithTs lower upper r = .ok it ∧ Yields Drained it out ∧ SortedRun out ∧
      ∀ k v, (k, v) ∈ out ↔
        (lower.AboveLower k ∧ upper.BelowUpper k) ∧ s.Sees contents r k v := by
  obtain ⟨l0Iters, levelIters, ls, hl0, hlevels, hmerge, hpruned⟩ :=
    merge_pruned (q := fun k => lower.AboveLower k) h (fun _ => Iff.rfl) (fun _ hk => hk.1)
      (fun id hid => kept_of_rangeOverlap h lower upper hid)
      (fun t => seekLower lower (SsTableIterator.createAndSeekToKey t)
        (SsTableIterator.createAndSeekToFirst t))
      (fun ssts => seekLower lower (SstConcatIterator.createAndSeekToKey ssts)
        (SstConcatIterator.createAndSeekToFirst ssts))
      (fun t es ht => seekLower_yields ht.sorted (SstConcatIterator.table_seek ht)
        (SstConcatIterator.table_first ht) lower)
      (fun ssts ess hess hv => seekLower_yields (sortedRun_flatten hess hv.pairwise)
        (SstConcatIterator.createAndSeekToKey_yields hess hv)
        (SstConcatIterator.createAndSeekToFirst_yields hess hv) lower)
  have hsorted := sortedRun_unionAll hpruned.sorted
  obtain ⟨it, hnew, hit⟩ := LsmIterator.new_yields hmerge hsorted upper r
  refine ⟨FusedIterator.new it, _, ?_, FusedIterator.new_yields hit, ?_, fun k v => ?_⟩
  · unfold scanWithTs
    simp only [hl0, bind, Except.bind] at hlevels ⊢
    rw [hlevels]
    simp only [hnew]
    rfl
  · exact (sortedRun_visible hsorted).sublist (List.takeWhile_sublist _)
  · rw [mem_window hsorted, mem_visible hsorted, and_comm]
    constructor
    · rintro ⟨hupper, hv, a, ha, hk, hmax⟩
      have hlower : lower.AboveLower k := by
        rw [← show a.keyRef = k from hk]
        exact hpruned.keys_unionAll ha
      exact ⟨⟨hlower, hupper⟩, by simpa using hv,
        (hpruned.newest_iff ⟨hlower, hupper⟩).mp ⟨a, ha, hk, hmax⟩⟩
    · rintro ⟨hrange, hv, hnewest⟩
      exact ⟨hrange.2, by simpa using hv, (hpruned.newest_iff hrange).mpr hnewest⟩

/-! ## The lookup -/

/-- A table is only left out of a lookup when it does not have the key. -/
theorem kept_of_keepTable {s : LsmStorageState MemTable} (h : s.Holds contents)
    (hbloom : ∀ id ∈ s.listedIds, ∀ t, s.sstables.lookup id = some t →
      t.BloomBuiltFrom (contents id)) (key : Bytes) {id : ℕ} (hid : id ∈ s.listedIds) :
    s.Kept contents (keepTable key) (fun k => k = key) id := by
  obtain ⟨t, hlookup, ht⟩ := h.tables id hid
  unfold Kept keepTable
  by_cases hwithin : keyWithin key t.firstKey t.lastKey = true
  · cases hb : t.bloom with
    | none =>
      exact ⟨t, true, hlookup, ht, by rw [if_pos hwithin, hb], fun hfalse => by cases hfalse⟩
    | some bloom =>
      obtain ⟨b, hmay, hmem⟩ := (hbloom id hid t hlookup).mayContain (Option.mem_def.mpr hb) key
      refine ⟨t, b, hlookup, ht, by rw [if_pos hwithin, hb]; exact hmay, fun hfalse e he hk => ?_⟩
      rw [hmem ⟨e, he, hk⟩] at hfalse
      cases hfalse
  · refine ⟨t, false, hlookup, ht, if_neg hwithin, fun _ e he hk => hwithin ?_⟩
    unfold keyWithin
    rw [← hk, decide_eq_true_iff]
    exact ⟨Key.keyRef_le_of_le (ht.firstKey_le he), Key.keyRef_le_of_le (ht.le_lastKey he)⟩

/-- A lookup returns what its reader sees at the key. -/
theorem getWithTs_eq {s : LsmStorageState MemTable} (h : s.Holds contents)
    (hbloom : ∀ id ∈ s.listedIds, ∀ t, s.sstables.lookup id = some t →
      t.BloomBuiltFrom (contents id)) (key : Bytes) (r : UInt64) :
    ∃ o, s.getWithTs key r = .ok o ∧ ∀ v, o = some v ↔ s.Sees contents r key v := by
  have hseek : ∀ es : List Entry, SortedRun es →
      (es.dropWhile fun e => e.1 < ⟨key, tsRangeBegin⟩) = es.filter fun e => key ≤ e.1.keyRef :=
    fun es hes => filter_rangeBegin hes key
  obtain ⟨l0Iters, levelIters, ls, hl0, hlevels, hmerge, hpruned⟩ :=
    merge_pruned (q := fun k => key ≤ k) h
      (fun k => show k = key ↔ (Bound.included key).AboveLower k ∧ (Bound.included key).BelowUpper k from
        ⟨fun hk => ⟨hk.ge, hk.le⟩, fun hk => le_antisymm hk.2 hk.1⟩) (fun _ hk => hk.ge)
      (fun id hid => kept_of_keepTable h hbloom key hid)
      (fun t => SsTableIterator.createAndSeekToKey t ⟨key, tsRangeBegin⟩)
      (fun ssts => SstConcatIterator.createAndSeekToKey ssts ⟨key, tsRangeBegin⟩)
      (fun t es ht => hseek es ht.sorted ▸ SstConcatIterator.table_seek ht _)
      (fun ssts ess hess hv => hseek _ (sortedRun_flatten hess hv.pairwise) ▸
        SstConcatIterator.createAndSeekToKey_yields hess hv _)
  have hsorted := sortedRun_unionAll hpruned.sorted
  obtain ⟨it, hskip, hit⟩ := LsmIterator.skipWhile_spec hmerge
    fun e => e.1.keyRef = key ∧ r < e.1.ts
  have hat := versionAt_eq (k := key) (r := r)
    (p := fun e : Entry => decide (e.1.keyRef = key ∧ r < e.1.ts)) (by simp) (unionAll ls)
  have hge : ∀ e ∈ unionAll ls, key ≤ VersionKey.user e.1 := fun e he => hpruned.keys_unionAll he
  have hsees : ∀ v, (versionAt key r (unionAll ls)).filter (fun v => !isTombstone v) = some v ↔
      s.Sees contents r key v := by
    intro v
    rw [Option.filter_eq_some_iff, versionAt_eq_some_iff hsorted hge, hpruned.newest_iff rfl, and_comm]
    exact and_congr_left fun _ => by simp
  refine ⟨_, ?_, hsees⟩
  rw [hat]
  unfold getWithTs
  simp only [hl0, bind, Except.bind] at hlevels ⊢
  rw [hlevels]
  simp only [hskip, Stepped.result]
  cases hl : (unionAll ls).dropWhile fun e => decide (e.1.keyRef = key ∧ r < e.1.ts) with
  | nil =>
    rw [hl] at hit
    rw [hit.isValid_eq_false_iff.mpr rfl]
    rfl
  | cons a rest =>
    rw [hl] at hit
    obtain ⟨hvalid, hkey, hvalue, -⟩ := hit.head
    rw [hvalid, hkey, hvalue]
    by_cases hk : a.1.keyRef = key <;> by_cases htomb : a.2 = [] <;>
      simp [hk, htomb, Option.filter, pure, Except.pure]

/-! ## The two read paths -/

omit [Platform] in
/-- What a reader sees, in terms of timestamps. -/
theorem newest_stored_iff {s : LsmStorageState MemTable} {r : UInt64} {k v : Bytes} :
    Newest (s.Stored contents) k r v ↔ ∃ t ≤ r, s.Stored contents (⟨k, t⟩, v) ∧
      ∀ t' ≤ r, ∀ w, s.Stored contents (⟨k, t'⟩, w) → t' ≤ t := by
  constructor
  · rintro ⟨⟨k', t⟩, ha, rfl, ht, hmax⟩
    exact ⟨t, ht, ha, fun t' ht' w hw => hmax ⟨k', t'⟩ w hw rfl ht'⟩
  · rintro ⟨t, ht, ha, hmax⟩
    refine ⟨⟨k, t⟩, ha, rfl, ht, ?_⟩
    rintro ⟨k', t'⟩ w hw rfl ht'
    exact hmax t' ht' w hw

/-- **A scan equals its plain definition.**  It hands out, by increasing key, the keys of the range
whose newest stored version not above `r` is live, and once it is invalid it stays invalid. -/
theorem scanWithTs_spec (s : LsmStorageState MemTable) (contents : ℕ → List Entry)
    (h : s.Holds contents) (lower upper : Bound Bytes) (r : UInt64) :
    ∃ it out, s.scanWithTs lower upper r = .ok it ∧
      (∀ n, out.length ≤ n → collect n it = some out) ∧
      (out.Pairwise fun x y => x.1 < y.1) ∧
      (∀ k v, (k, v) ∈ out ↔ (lower.AboveLower k ∧ upper.BelowUpper k) ∧ v ≠ [] ∧
        ∃ t ≤ r, s.Stored contents (⟨k, t⟩, v) ∧
          ∀ t' ≤ r, ∀ w, s.Stored contents (⟨k, t'⟩, w) → t' ≤ t) ∧
      ∀ m, isValid (nextN m it) = false → ∀ n, isValid (nextN (m + n) it) = false := by
  obtain ⟨it, out, hscan, hit, hsorted, hmem⟩ := scanWithTs_yields h lower upper r
  refine ⟨it, out, hscan, fun n hn => hit.collect hn, hsorted, fun k v => ?_,
    fun m hm n => hit.stays_invalid hm n⟩
  rw [hmem, Sees, newest_stored_iff]

/-- **The lookup agrees with the full scan**: no key range, filter or seek hides a version. -/
theorem getWithTs_iff_scanWithTs (s : LsmStorageState MemTable) (contents : ℕ → List Entry)
    (h : s.Holds contents)
    (hbloom : ∀ id ∈ s.listedIds, ∀ t, s.sstables.lookup id = some t →
      t.BloomBuiltFrom (contents id)) (k : Bytes) (r : UInt64) :
    ∃ o it out, s.getWithTs k r = .ok o ∧ s.scanWithTs .unbounded .unbounded r = .ok it ∧
      (∀ n, out.length ≤ n → collect n it = some out) ∧ ∀ v, o = some v ↔ (k, v) ∈ out := by
  obtain ⟨it, out, hscan, hit, -, hmem⟩ := scanWithTs_yields h .unbounded .unbounded r
  obtain ⟨o, hget, hsees⟩ := getWithTs_eq h hbloom k r
  refine ⟨o, it, out, hget, hscan, fun n hn => hit.collect hn, fun v => ?_⟩
  rw [hsees, hmem]
  exact (and_iff_right ⟨trivial, trivial⟩).symm

end LsmStorageState

namespace LsmStorageState

/-! ### A small store

Key 1 has versions in two adjacent tables of a level, and key 2 in a memtable and in L0. -/

section SmallStore

attribute [local instance] shortKeyPlatform

/-- What the three tables of the example hold. -/
def smallContents : ℕ → List Entry
  | 1 => [(⟨[2], 3⟩, [20])]
  | 2 => [(⟨[1], 6⟩, []), (⟨[1], 4⟩, [11])]
  | 3 => [(⟨[1], 2⟩, [10]), (⟨[3], 5⟩, [30])]
  | _ => []

/-- Two versions of a key in memory and in L0, and a deleted one in the levels. -/
def smallStore (t₁ t₂ t₃ : SsTable) : LsmStorageState MemTable :=
  { memtable := (MemTable.create 4).insert ⟨[2], 7⟩ [21]
    immMemtables := []
    l0Sstables := [1]
    levels := [(1, [2, 3])]
    sstables := (((∅ : SstMap).insert 1 t₁).insert 2 t₂).insert 3 t₃ }

theorem exists_smallStore : ∃ t₁ t₂ t₃, SsTable.ofEntries 4096 1 (smallContents 1) = .ok t₁ ∧
    SsTable.ofEntries 4096 2 (smallContents 2) = .ok t₂ ∧
    SsTable.ofEntries 4096 3 (smallContents 3) = .ok t₃ ∧
    (smallStore t₁ t₂ t₃).Holds smallContents ∧
    ∀ id ∈ (smallStore t₁ t₂ t₃).listedIds, ∀ t, (smallStore t₁ t₂ t₃).sstables.lookup id = some t →
      t.BloomBuiltFrom (smallContents id) := by
  have hcontents : ∀ id ∈ [1, 2, 3], smallContents id ≠ [] ∧ SortedRun (smallContents id) ∧
      ∀ e ∈ smallContents id, e.1.keyRef ≠ [] ∧ e.1.keyRef.length ≤ 65535 ∧ e.2.length ≤ 65535 := by
    decide
  have hbuild : ∀ id ∈ [1, 2, 3], ∃ t, SsTable.ofEntries 4096 id (smallContents id) = .ok t ∧
      t.HasEntries (smallContents id) ∧ t.BloomBuiltFrom (smallContents id) := by
    intro id hid
    obtain ⟨hne, hs, henc⟩ := hcontents id hid
    exact SsTable.ofEntries_spec (by decide) hne hs
      (fun e he => ⟨(henc e he).1, (henc e he).2.1, (henc e he).2.2⟩) id
  obtain ⟨t₁, h₁, he₁, hb₁⟩ := hbuild 1 (by decide)
  obtain ⟨t₂, h₂, he₂, hb₂⟩ := hbuild 2 (by decide)
  obtain ⟨t₃, h₃, he₃, hb₃⟩ := hbuild 3 (by decide)
  have hl₁ : (smallStore t₁ t₂ t₃).sstables.lookup 1 = some t₁ :=
    (AList.lookup_insert_ne (by decide)).trans
      ((AList.lookup_insert_ne (by decide)).trans (AList.lookup_insert _))
  have hl₂ : (smallStore t₁ t₂ t₃).sstables.lookup 2 = some t₂ :=
    (AList.lookup_insert_ne (by decide)).trans (AList.lookup_insert _)
  have hl₃ : (smallStore t₁ t₂ t₃).sstables.lookup 3 = some t₃ :=
    AList.lookup_insert _
  have hlisted : (smallStore t₁ t₂ t₃).listedIds = [1, 2, 3] := rfl
  refine ⟨t₁, t₂, t₃, h₁, h₂, h₃, ⟨?_, ?_, ?_⟩, ?_⟩
  · have hentries : ∀ m ∈ [(smallStore t₁ t₂ t₃).memtable],
        m.map.entries = [(⟨[2], 7⟩, [21])] := by
      intro m hm
      rw [List.mem_singleton.mp hm]
      rfl
    intro m hm e he
    rw [hentries m hm, List.mem_singleton] at he
    rw [he]
    decide
  · rw [hlisted]
    simp only [List.forall_mem_cons, List.not_mem_nil, false_imp_iff, implies_true, and_true]
    exact ⟨⟨t₁, hl₁, he₁⟩, ⟨t₂, hl₂, he₂⟩, ⟨t₃, hl₃, he₃⟩⟩
  · intro level hlevel ssts hssts
    rw [List.mem_singleton.mp hlevel] at hssts
    obtain ⟨t₂', _, ht₂, hrest, rfl⟩ := List.forall₂_cons_left_iff.mp hssts
    obtain ⟨t₃', _, ht₃, hnil, rfl⟩ := List.forall₂_cons_left_iff.mp hrest
    cases hnil
    rw [hl₂] at ht₂
    rw [hl₃] at ht₃
    cases ht₂
    cases ht₃
    exact .of_sortedRun (.cons he₂ (.cons he₃ .nil)) (by decide)
  · rw [hlisted]
    simp only [List.forall_mem_cons, List.not_mem_nil, false_imp_iff, implies_true, and_true]
    refine ⟨fun t ht => ?_, fun t ht => ?_, fun t ht => ?_⟩
    · rw [hl₁] at ht
      cases ht
      exact hb₁
    · rw [hl₂] at ht
      cases ht
      exact hb₂
    · rw [hl₃] at ht
      cases ht
      exact hb₃

/-- A scan of the keys from 1 to 3, the last excluded, at timestamp 4. -/
theorem scanWithTs_small : ∃ t₁ t₂ t₃, SsTable.ofEntries 4096 1 (smallContents 1) = .ok t₁ ∧
    SsTable.ofEntries 4096 2 (smallContents 2) = .ok t₂ ∧
    SsTable.ofEntries 4096 3 (smallContents 3) = .ok t₃ ∧
    ∃ it out, (smallStore t₁ t₂ t₃).scanWithTs (.included [1]) (.excluded [3]) 4 = .ok it ∧
      (∀ n, out.length ≤ n → collect n it = some out) ∧
      (out.Pairwise fun x y => x.1 < y.1) ∧
      (∀ k v, (k, v) ∈ out ↔
        ((Bound.included [1]).AboveLower k ∧ (Bound.excluded [3]).BelowUpper k) ∧ v ≠ [] ∧
          ∃ t ≤ 4, (smallStore t₁ t₂ t₃).Stored smallContents (⟨k, t⟩, v) ∧
            ∀ t' ≤ 4, ∀ w, (smallStore t₁ t₂ t₃).Stored smallContents (⟨k, t'⟩, w) → t' ≤ t) ∧
      ∀ m, isValid (nextN m it) = false → ∀ n, isValid (nextN (m + n) it) = false := by
  obtain ⟨t₁, t₂, t₃, h₁, h₂, h₃, hholds, -⟩ := exists_smallStore
  exact ⟨t₁, t₂, t₃, h₁, h₂, h₃,
    scanWithTs_spec (smallStore t₁ t₂ t₃) smallContents hholds (.included [1]) (.excluded [3]) 4⟩

/-- A lookup of key 1, whose versions are in two tables, at timestamp 3. -/
theorem getWithTs_small : ∃ t₁ t₂ t₃, SsTable.ofEntries 4096 1 (smallContents 1) = .ok t₁ ∧
    SsTable.ofEntries 4096 2 (smallContents 2) = .ok t₂ ∧
    SsTable.ofEntries 4096 3 (smallContents 3) = .ok t₃ ∧
    ∃ o it out, (smallStore t₁ t₂ t₃).getWithTs [1] 3 = .ok o ∧
      (smallStore t₁ t₂ t₃).scanWithTs .unbounded .unbounded 3 = .ok it ∧
      (∀ n, out.length ≤ n → collect n it = some out) ∧ ∀ v, o = some v ↔ ([1], v) ∈ out := by
  obtain ⟨t₁, t₂, t₃, h₁, h₂, h₃, hholds, hbloom⟩ := exists_smallStore
  exact ⟨t₁, t₂, t₃, h₁, h₂, h₃,
    getWithTs_iff_scanWithTs (smallStore t₁ t₂ t₃) smallContents hholds hbloom [1] 3⟩

end SmallStore

end LsmStorageState

end TinyLsm
