import TinyLsm.Table.Iterator
import TinyLsm.Lib.Intervals

/-!
# Concatenating tables (`iterators/concat_iterator.rs`)

The tables of a level are sorted and do not overlap, so a level is read by reading its tables one
after the other; a table is opened when its turn comes.

A list of tables that hold the entries `ess` and pass `check_sst_valid` is one sorted run
(`sortedRun_flatten`), and the iterator hands out `ess.flatten`, from the start
(`createAndSeekToFirst_yields`) or from the first entry that is not smaller than a key
(`createAndSeekToKey_yields`).
-/

namespace TinyLsm

/-- The result of a call that built an iterator and then moved it. -/
def Stepped.result {I : Type} : Stepped I → Outcome I
  | (.ok (), it) => .ok it
  | (.error e, _) => .error e

/-- The assertions of `check_sst_valid`. -/
def SstsValid (ssts : List SsTable) : Prop :=
  (∀ t ∈ ssts, t.firstKey ≤ t.lastKey) ∧ ssts.IsChain fun a b => a.lastKey < b.firstKey

instance (ssts : List SsTable) : Decidable (SstsValid ssts) :=
  inferInstanceAs (Decidable (_ ∧ _))

/-- An iterator over the tables of one level, of which at most one is open. -/
structure SstConcatIterator where
  current : Option SsTableIterator
  nextSstIdx : ℕ
  sstables : List SsTable

namespace SstConcatIterator

variable [Platform]

/-- The current table is used up. -/
def stuck (it : SstConcatIterator) : Bool :=
  match it.current with
  | none => false
  | some current => !StorageIterator.isValid current

/-- The loop of `move_until_valid`, over the tables from `next_sst_idx` on. -/
def moveLoop : List SsTable → SstConcatIterator → Stepped SstConcatIterator
  | [], it => (.ok (), if it.stuck then { it with current := none } else it)
  | t :: rest, it =>
    if it.stuck then
      match SsTableIterator.createAndSeekToFirst t with
      | .error e => (.error e, it)
      | .ok current =>
        moveLoop rest { it with current := some current, nextSstIdx := it.nextSstIdx + 1 }
    else (.ok (), it)

/-- Leave tables behind that have nothing to show any more. -/
def moveUntilValid (it : SstConcatIterator) : Stepped SstConcatIterator :=
  moveLoop (it.sstables.drop it.nextSstIdx) it

/-- An iterator at the first entry of the first table. -/
def createAndSeekToFirst (sstables : List SsTable) : Outcome SstConcatIterator :=
  if SstsValid sstables then
    match sstables[0]? with
    | none => .ok { current := none, nextSstIdx := 0, sstables }
    | some t => do
      let current ← SsTableIterator.createAndSeekToFirst t
      (moveUntilValid { current := some current, nextSstIdx := 1, sstables }).result
  else .error (.panic "assertion failed: check_sst_valid")

/-- An iterator at the first entry whose key is at least `key`. -/
def createAndSeekToKey (sstables : List SsTable) (key : Key) : Outcome SstConcatIterator :=
  if SstsValid sstables then
    let idx := partitionPoint (fun t => t.firstKey ≤ key) sstables - 1
    match sstables[idx]? with
    | none => .ok { current := none, nextSstIdx := sstables.length, sstables }
    | some t => do
      let current ← SsTableIterator.createAndSeekToKey t key
      (moveUntilValid { current := some current, nextSstIdx := idx + 1, sstables }).result
  else .error (.panic "assertion failed: check_sst_valid")

/-- `next` takes the current iterator out, so a failed call leaves the iterator invalid. -/
def next (it : SstConcatIterator) : Stepped SstConcatIterator :=
  match it.current with
  | none => (.ok (), it)
  | some current =>
    match StorageIterator.next current with
    | (.error e, _) => (.error e, { it with current := none })
    | (.ok (), current) => moveUntilValid { it with current := some current }

/-- `is_valid` also asserts that the current table iterator is valid. -/
instance : StorageIterator SstConcatIterator Key where
  value it := (it.current.map StorageIterator.value).getD []
  key it := (it.current.map StorageIterator.key).getD Key.new
  isValid it := it.current.isSome
  next := next
  remaining it := (it.current.map StorageIterator.remaining).getD 0 +
    ((it.sstables.drop it.nextSstIdx).map fun t => 65535 * t.numOfBlocks).sum

end SstConcatIterator

/-! ## A list of tables as one run -/

variable {t : SsTable} {ssts : List SsTable} {ess : List (List Entry)} {es rest : List Entry}

/-- In a valid list every table ends before every later one starts. -/
theorem SstsValid.pairwise (h : SstsValid ssts) :
    ssts.Pairwise fun a b => a.lastKey < b.firstKey := Intervals.Ascending.pairwise h

theorem SstsValid.of_pairwise (hle : ∀ t ∈ ssts, t.firstKey ≤ t.lastKey)
    (h : ssts.Pairwise fun a b => a.lastKey < b.firstKey) : SstsValid ssts :=
  Intervals.Ascending.of_pairwise hle h

theorem SstsValid.sublist {ssts' : List SsTable} (h : SstsValid ssts) (hs : ssts'.Sublist ssts) :
    SstsValid ssts' := Intervals.Ascending.sublist h hs

variable [Platform]

namespace SsTable.HasEntries

theorem length_le (h : t.HasEntries es) : es.length ≤ 65535 * t.numOfBlocks := by
  obtain ⟨bss, hb, rfl⟩ := h
  exact SsTableIterator.length_flatten_drop_le hb 0

end SsTable.HasEntries

theorem sortedRun_flatten (h : List.Forall₂ SsTable.HasEntries ssts ess)
    (hp : ssts.Pairwise fun a b => a.lastKey < b.firstKey) : SortedRun ess.flatten := by
  induction h with
  | nil => exact SortedRun.nil
  | @cons t es ssts ess ht htail ih =>
    obtain ⟨hfirst, hrest⟩ := List.pairwise_cons.mp hp
    rw [List.flatten_cons, SortedRun.append_iff]
    refine ⟨ht.sorted, ih hrest, fun a ha b hb => ?_⟩
    obtain ⟨es', hes', hb'⟩ := List.mem_flatten.mp hb
    obtain ⟨t', ht', hent⟩ := exists_of_mem_right htail hes'
    exact (ht.le_lastKey ha).trans_lt ((hfirst t' ht').trans_le (hent.firstKey_le hb'))

/-- Tables whose entries form one run pass `check_sst_valid`. -/
theorem SstsValid.of_sortedRun (h : List.Forall₂ SsTable.HasEntries ssts ess)
    (hs : SortedRun ess.flatten) : SstsValid ssts := by
  refine .of_pairwise (fun t ht => ?_) ?_
  · obtain ⟨es, -, hes⟩ := exists_of_mem_left h ht
    exact hes.firstKey_le_lastKey
  · induction h with
    | nil => exact .nil
    | @cons t es ssts ess ht htail ih =>
      rw [List.flatten_cons, SortedRun.append_iff] at hs
      refine List.pairwise_cons.mpr ⟨fun t' ht' => ?_, ih hs.2.1⟩
      obtain ⟨es', hes', hent⟩ := exists_of_mem_left htail ht'
      obtain ⟨a, ha, hlast⟩ := ht.lastKey_eq
      obtain ⟨b, hb, hfirst⟩ := hent.firstKey_eq
      rw [hlast, hfirst]
      exact hs.2.2 a (List.mem_of_getLast? ha) b
        (List.mem_flatten.mpr ⟨es', hes', List.mem_of_mem_head? hb⟩)

theorem length_flatten_le (h : List.Forall₂ SsTable.HasEntries ssts ess) :
    ess.flatten.length ≤ (ssts.map fun t => 65535 * t.numOfBlocks).sum := by
  induction h with
  | nil => exact Nat.zero_le _
  | cons ht _ ih =>
    rw [List.flatten_cons, List.length_append, List.map_cons, List.sum_cons]
    exact Nat.add_le_add ht.length_le ih

namespace SstConcatIterator

open StorageIterator

variable {it : SstConcatIterator}

theorem table_first (h : t.HasEntries es) :
    ∃ cur, SsTableIterator.createAndSeekToFirst t = .ok cur ∧ Yields Drained cur es := by
  obtain ⟨bss, hb, rfl⟩ := h
  exact SsTableIterator.createAndSeekToFirst_yields hb

theorem table_seek (h : t.HasEntries es) (key : Key) :
    ∃ cur, SsTableIterator.createAndSeekToKey t key = .ok cur ∧
      Yields Drained cur (es.dropWhile fun e => e.1 < key) := by
  obtain ⟨bss, hb, rfl⟩ := h
  exact SsTableIterator.createAndSeekToKey_yields hb key

/-- The iterator is inside a table and the tables after it hold `ess`, or it is at the end. -/
inductive Reads (it : SstConcatIterator) : List Entry → Prop where
  | inside {cur : SsTableIterator} {l : List Entry} {ess : List (List Entry)}
      (hcur : it.current = some cur) (hl : Yields Drained cur l) (hne : l ≠ [])
      (hrest : List.Forall₂ SsTable.HasEntries (it.sstables.drop it.nextSstIdx) ess) :
      Reads it (l ++ ess.flatten)
  | done (hcur : it.current = none) : Reads it []

/-- `move_until_valid` skips at most one table that is used up. -/
theorem moveUntilValid_spec {cur : SsTableIterator} {l : List Entry} (hcur : it.current = some cur)
    (hl : Yields Drained cur l)
    (hrest : List.Forall₂ SsTable.HasEntries (it.sstables.drop it.nextSstIdx) ess) :
    ∃ it', moveUntilValid it = (.ok (), it') ∧ Reads it' (l ++ ess.flatten) := by
  have hstuck : it.stuck = true ↔ l = [] := by
    unfold stuck
    rw [hcur, ← hl.isValid_eq_false_iff]
    simp
  unfold moveUntilValid
  cases hdrop : it.sstables.drop it.nextSstIdx with
  | nil =>
    rw [hdrop] at hrest
    cases hrest
    refine ⟨_, rfl, ?_⟩
    rcases eq_or_ne l [] with rfl | hne
    · rw [if_pos (hstuck.mpr rfl)]
      exact .done rfl
    · rw [if_neg (by rw [hstuck]; exact hne)]
      exact .inside hcur hl hne (by rw [hdrop]; exact .nil)
  | cons t tables =>
    rcases eq_or_ne l [] with rfl | hne
    · -- the table is used up and the next one is opened
      rw [hdrop] at hrest
      obtain ⟨es, ess', hes, hess, rfl⟩ := List.forall₂_cons_left_iff.mp hrest
      obtain ⟨cur', hfirst, hcur'⟩ := table_first hes
      rw [moveLoop, if_pos (hstuck.mpr rfl), hfirst]
      simp only
      have hnext : it.sstables.drop (it.nextSstIdx + 1) = tables := by
        rw [← List.drop_drop, hdrop]
        rfl
      have hfresh : ({ it with current := some cur', nextSstIdx := it.nextSstIdx + 1 } :
          SstConcatIterator).stuck = false := by
        unfold stuck
        simp only
        rw [hcur'.isValid_iff.mpr hes.ne_nil]
        rfl
      have hreads : Reads { it with current := some cur', nextSstIdx := it.nextSstIdx + 1 }
          (es ++ ess'.flatten) :=
        .inside rfl hcur' hes.ne_nil (by rw [hnext]; exact hess)
      refine ⟨_, ?_, hreads⟩
      cases tables with
      | nil => rw [moveLoop, hfresh]; rfl
      | cons t' tables => rw [moveLoop, hfresh]; rfl
    · rw [moveLoop, if_neg (by rw [hstuck]; exact hne)]
      exact ⟨it, rfl, .inside hcur hl hne hrest⟩

theorem drained_of_done (h : it.current = none) : Drained it := by
  refine Drained.of_invariant (fun it => it.current = none) (fun it hit => ?_) (fun it hit => ?_) h
  · change it.current.isSome = false
    rw [hit]
    rfl
  · refine ⟨it, ?_, hit⟩
    change next it = _
    unfold next
    rw [hit]

theorem Reads.yields (h : Reads it rest) : Yields Drained it rest := by
  refine Yields.of_sim Reads (fun it hit => ?_) (fun it a l hit => ?_) h
  · generalize hnil : ([] : List Entry) = l at hit
    cases hit with
    | inside hcur hl hne hrest =>
      exact absurd (List.append_eq_nil_iff.mp hnil.symm).1 hne
    | done hcur =>
      have hd := drained_of_done hcur
      exact ⟨hd.isValid, hd⟩
  · generalize hcons : a :: l = l' at hit
    cases hit with
    | @inside cur l₀ ess hcur hl hne hrest =>
      cases l₀ with
      | nil => exact absurd rfl hne
      | cons b l₀ =>
        rw [List.cons_append, List.cons.injEq] at hcons
        obtain ⟨rfl, rfl⟩ := hcons
        obtain ⟨-, hkey, hvalue, cur', hnext, htail⟩ := hl.head
        have hlen := hl.length_le
        have hflat := length_flatten_le hrest
        refine ⟨?_, ?_, ?_, ?_, ?_⟩
        · change it.current.isSome = true
          rw [hcur]
          rfl
        · change (it.current.map key).getD Key.new = _
          rw [hcur]
          exact hkey
        · change (it.current.map value).getD [] = _
          rw [hcur]
          exact hvalue
        · change _ < (it.current.map remaining).getD 0 + _
          rw [hcur, List.length_append]
          rw [List.length_cons] at hlen
          simp only [Option.map_some, Option.getD_some]
          omega
        · change ∃ it', next it = (.ok (), it') ∧ _
          unfold next
          rw [hcur]
          simp only [hnext]
          exact moveUntilValid_spec rfl htail hrest
    | done hcur => cases hcons

/-- **From the start the iterator hands out the whole level.** -/
theorem createAndSeekToFirst_yields (h : List.Forall₂ SsTable.HasEntries ssts ess)
    (hv : SstsValid ssts) :
    ∃ it, createAndSeekToFirst ssts = .ok it ∧ Yields Drained it ess.flatten := by
  unfold createAndSeekToFirst
  rw [if_pos hv]
  cases h with
  | nil => exact ⟨_, rfl, (Reads.done rfl).yields⟩
  | @cons t es ssts ess ht htail =>
    obtain ⟨cur, hfirst, hcur⟩ := table_first ht
    obtain ⟨it', hmove, hreads⟩ := moveUntilValid_spec
      (show (⟨some cur, 1, t :: ssts⟩ : SstConcatIterator).current = some cur from rfl) hcur htail
    refine ⟨it', ?_, hreads.yields⟩
    simp only [List.getElem?_cons_zero, hfirst, bind, Except.bind, hmove]
    rfl

/-- **`create_and_seek_to_key` starts at the first entry that is not smaller than the key.** -/
theorem createAndSeekToKey_yields (h : List.Forall₂ SsTable.HasEntries ssts ess)
    (hv : SstsValid ssts) (key : Key) :
    ∃ it, createAndSeekToKey ssts key = .ok it ∧
      Yields Drained it (ess.flatten.dropWhile fun e => e.1 < key) := by
  unfold createAndSeekToKey
  rw [if_pos hv]
  rcases eq_or_ne ess [] with rfl | hne
  · cases h
    exact ⟨_, rfl, (Reads.done rfl).yields⟩
  have hfirst : List.Forall₂ (fun (t : SsTable) es => ∃ a ∈ es.head?, t.firstKey = a.1) ssts ess := by
    refine h.imp fun t es ht => ?_
    obtain ⟨bss, hb, rfl⟩ := ht
    exact hb.firstKey
  obtain ⟨es, hes, hbefore, hafter⟩ := partitionPoint_flatten SsTable.firstKey hfirst
    (sortedRun_flatten h hv.pairwise) hne key
  obtain ⟨k, hk⟩ : ∃ k, k = partitionPoint (fun t : SsTable => decide (t.firstKey ≤ key)) ssts - 1 :=
    ⟨_, rfl⟩
  rw [← hk] at hes hbefore hafter
  obtain ⟨hlt, rfl⟩ := List.getElem?_eq_some_iff.mp hes
  have hlength : ssts.length = ess.length := h.length_eq
  have htable : ssts[k].HasEntries ess[k] := (List.forall₂_iff_get.mp h).2 k (by omega) hlt
  have hrest : List.Forall₂ SsTable.HasEntries (ssts.drop (k + 1)) (ess.drop (k + 1)) :=
    List.forall₂_drop (k + 1) h
  rw [flatten_eq_take_append_drop hes, dropWhile_lt_append hbefore hafter]
  obtain ⟨cur, hseek, hcur⟩ := table_seek htable key
  obtain ⟨it', hmove, hreads⟩ := moveUntilValid_spec
    (show (⟨some cur, k + 1, ssts⟩ : SstConcatIterator).current = some cur from rfl) hcur hrest
  refine ⟨it', ?_, hreads.yields⟩
  simp only [← hk, List.getElem?_eq_getElem (show k < ssts.length by omega), bind, Except.bind,
    hseek, hmove]
  rfl

end SstConcatIterator

end TinyLsm
