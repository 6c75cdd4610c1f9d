import TinyLsm.LsmStorage.Engine

/-!
# Transactions (`mvcc.rs`, `mvcc/txn.rs`)

A transaction reads the store at its timestamp and keeps its own writes in a map until it commits.
Both reads look through that map first: `get` asks it before the store, and `scan` merges an
iterator over it with the scan of the store, the local entry winning a tie.  A local deletion is an
entry with an empty value, so it hides the entry of the store in the merge and is skipped after it.

The store is an argument of the two reads, since the transaction shares it with everybody else.

`Overlay` says what a transaction should read; `scan_yields` and `get_eq` say that it does.
-/

namespace TinyLsm

open StorageIterator

/-! ## The local iterator -/

/-- `TxnLocalIterator`: what is left of the range, and the item shown. -/
structure TxnLocalIterator where
  iter : List (Bytes × Bytes)
  item : Bytes × Bytes
  deriving DecidableEq

namespace TxnLocalIterator

/-- Show the next entry of the range. -/
def next (it : TxnLocalIterator) : Stepped TxnLocalIterator :=
  match it.iter with
  | [] => (.ok (), ⟨[], ([], [])⟩)
  | e :: rest => (.ok (), ⟨rest, e⟩)

instance : StorageIterator TxnLocalIterator Bytes where
  value it := it.item.2
  key it := it.item.1
  isValid it := !it.item.1.isEmpty
  next := next
  remaining it := it.iter.length + 1

/-- An iterator at the first local write in the range. -/
def create (map : SkipMap Bytes) (lower upper : Bound Bytes) : TxnLocalIterator :=
  (next ⟨map.range lower upper, ([], [])⟩).2

theorem showsItems : ShowsItems TxnLocalIterator.mk List.isEmpty ([], []) where
  shows _ _ := ⟨rfl, rfl, rfl⟩
  remaining _ _ := Nat.lt_succ_self _
  next_nil _ := rfl
  next_cons _ _ _ := rfl
  last_isEnd := rfl

theorem create_yields {map : SkipMap Bytes} (h : ∀ e ∈ map.entries, e.1 ≠ [])
    (lower upper : Bound Bytes) :
    Yields Drained (create map lower upper) (map.range lower upper) := by
  refine showsItems.yields_next ?_ _
  intro e he
  exact List.isEmpty_eq_false_iff.mpr (h e (List.mem_of_mem_filter he))

end TxnLocalIterator

/-! ## The transaction -/

/-- `Transaction`. -/
structure Transaction where
  readTs : UInt64
  localStorage : SkipMap Bytes
  /-- The write set and the read set. -/
  keyHashes : Option (Finset UInt32 × Finset UInt32)

/-- `new_txn`. -/
def LsmStorageInner.newTxn (inner : LsmStorageInner) (serializable : Bool) : Transaction :=
  { readTs := inner.latestCommitTs
    localStorage := SkipMap.new
    keyHashes := if serializable then some (∅, ∅) else none }

/-- `TxnIterator`, over any iterator of the store. -/
structure TxnIterator (B : Type) where
  txn : Transaction
  iter : TwoMergeIterator TxnLocalIterator B

section

variable [Platform]

/-- Every access, also a write, puts the hash of the key into the read set. -/
def Transaction.recordHash (txn : Transaction) (key : Bytes) : Transaction :=
  { txn with keyHashes := txn.keyHashes.map fun p => (p.1, insert (Platform.hash32 key) p.2) }

namespace TxnIterator

variable {B : Type} [StorageIterator B Bytes]

/-- `record_read_key`: the key that is shown was read. -/
def recordReadKey (it : TxnIterator B) : TxnIterator B :=
  if isValid it.iter then { it with txn := it.txn.recordHash (key it.iter) } else it

/-- `skip_key`, on the merged iterator. -/
def skipKey (iter : TwoMergeIterator TxnLocalIterator B) :
    Stepped (TwoMergeIterator TxnLocalIterator B) :=
  advanceWhile (fun e => e.1 = key iter) (remaining iter) iter

/-- The loop of `move_to_non_delete`, for at most `n` keys. -/
def moveToNonDeleteLoop : ℕ → TwoMergeIterator TxnLocalIterator B →
    Stepped (TwoMergeIterator TxnLocalIterator B)
  | 0, iter =>
    if isValid iter && isTombstone (value iter) then
      (.error (.panic "iterator did not end"), iter)
    else (.ok (), iter)
  | n + 1, iter =>
    if isValid iter && isTombstone (value iter) then
      match skipKey iter with
      | (.ok (), iter) => moveToNonDeleteLoop n iter
      | (.error e, iter) => (.error e, iter)
    else (.ok (), iter)

/-- `move_to_non_delete`: skip keys that are deleted. -/
def moveToNonDelete (it : TxnIterator B) : Stepped (TxnIterator B) :=
  let (o, iter) := moveToNonDeleteLoop (remaining it.iter) it.iter
  (o, { it with iter })

/-- An iterator at the first key that is not deleted, which counts as read. -/
def create (txn : Transaction) (iter : TwoMergeIterator TxnLocalIterator B) :
    Outcome (TxnIterator B) :=
  match moveToNonDelete ⟨txn, iter⟩ with
  | (.ok (), it) => .ok it.recordReadKey
  | (.error e, _) => .error e

/-- Step to the next key that is not deleted, which counts as read. -/
def next (it : TxnIterator B) : Stepped (TxnIterator B) :=
  match skipKey it.iter with
  | (.error e, iter) => (.error e, { it with iter })
  | (.ok (), iter) =>
    match moveToNonDelete { it with iter } with
    | (.error e, it) => (.error e, it)
    | (.ok (), it) => (.ok (), it.recordReadKey)

instance : StorageIterator (TxnIterator B) Bytes where
  value it := value it.iter
  key it := key it.iter
  isValid it := isValid it.iter
  next := next
  remaining it := remaining it.iter

end TxnIterator

namespace Transaction

/-- `get`: a local write, or else what the store has at the read timestamp. -/
def get (txn : Transaction) (inner : LsmStorageInner) (key : Bytes) :
    Outcome (Option Bytes) × Transaction :=
  let txn := txn.recordHash key
  match txn.localStorage.get key with
  | some value => (.ok (if value.isEmpty then none else some value), txn)
  | none => (inner.state.getWithTs key txn.readTs, txn)

/-- `scan`: the local writes over what the store has at the read timestamp. -/
def scan (txn : Transaction) (inner : LsmStorageInner) (lower upper : Bound Bytes) :
    Outcome (TxnIterator (FusedIterator (LsmIterator LsmIteratorInner))) := do
  let lsmIter ← inner.state.scanWithTs lower upper txn.readTs
  let localIter := TxnLocalIterator.create txn.localStorage lower upper
  TxnIterator.create txn (TwoMergeIterator.create localIter lsmIter)

/-- `put`: a local write.  The hash goes into the second set, which is the read set. -/
def put (txn : Transaction) (key value : Bytes) : Transaction :=
  let txn := txn.recordHash key
  { txn with localStorage := txn.localStorage.insert key value }

/-- `delete`: a local write of the empty value. -/
def delete (txn : Transaction) (key : Bytes) : Transaction :=
  let txn := txn.recordHash key
  { txn with localStorage := txn.localStorage.insert key [] }

/-- One call of `put` or `delete`. -/
def write (txn : Transaction) : WriteBatchRecord → Transaction
  | .put key value => txn.put key value
  | .del key => txn.delete key

/-- One call after the other. -/
def writeAll (txn : Transaction) (writes : List WriteBatchRecord) : Transaction :=
  writes.foldl write txn

end Transaction

end

/-! ## The merged scan -/

namespace TxnIterator

variable {B : Type} [StorageIterator B Bytes] {P : TwoMergeIterator TxnLocalIterator B → Prop}
  {iter : TwoMergeIterator TxnLocalIterator B} {l : List (Bytes × Bytes)}

/-- A local deletion. -/
def deleted (e : Bytes × Bytes) : Bool := isTombstone e.2

/-- In a sorted run `skip_key` leaves the first entry behind. -/
theorem skipKey_spec {a : Bytes × Bytes} (h : Yields P iter (a :: l)) (hs : SortedRun (a :: l)) :
    ∃ iter', skipKey iter = (.ok (), iter') ∧ Yields P iter' l := by
  obtain ⟨-, hkey, -⟩ := h.head
  obtain ⟨iter', hskip, hiter'⟩ := h.advanceWhile (fun e => e.1 = key iter) h.length_le
  have hdrop : ((a :: l).dropWhile fun e => decide (e.1 = key iter)) = l := by
    rw [hkey, List.dropWhile_cons_of_pos (by simp)]
    cases l with
    | nil => rfl
    | cons b l =>
      have hlt : a.1 < b.1 := hs.head_lt List.mem_cons_self
      exact List.dropWhile_cons_of_neg (by simpa using hlt.ne')
  rw [hdrop] at hiter'
  exact ⟨iter', hskip, hiter'⟩

theorem moveToNonDeleteLoop_of_stop (h : (isValid iter && isTombstone (value iter)) = false)
    (n : ℕ) : moveToNonDeleteLoop n iter = (.ok (), iter) := by
  cases n <;> rw [moveToNonDeleteLoop, h, if_neg Bool.false_ne_true]

/-- Local deletions are passed over. -/
theorem moveToNonDeleteLoop_spec (h : Yields P iter l) (hs : SortedRun l) {n : ℕ}
    (hn : l.length ≤ n) :
    ∃ iter', moveToNonDeleteLoop n iter = (.ok (), iter') ∧
      Yields P iter' (l.dropWhile deleted) := by
  induction l generalizing iter n with
  | nil =>
    have hvalid := h.isValid_eq_false_iff.mpr rfl
    exact ⟨iter, moveToNonDeleteLoop_of_stop (by rw [hvalid, Bool.false_and]) n, h⟩
  | cons a l ih =>
    obtain ⟨hvalid, -, hvalue, -⟩ := h.head
    by_cases htomb : deleted a = true
    · rcases n with _ | n
      · simp at hn
      obtain ⟨iter₁, hskip, hiter₁⟩ := skipKey_spec h hs
      obtain ⟨iter', hmove, hiter'⟩ := ih hiter₁ hs.tail (Nat.le_of_succ_le_succ hn)
      rw [List.dropWhile_cons_of_pos htomb, moveToNonDeleteLoop, hvalid, hvalue,
        show isTombstone a.2 = true from htomb]
      exact ⟨iter', by rw [Bool.true_and, if_pos rfl, hskip]; exact hmove, hiter'⟩
    · rw [List.dropWhile_cons_of_neg htomb]
      refine ⟨iter, moveToNonDeleteLoop_of_stop ?_ n, h⟩
      rw [hvalue, show isTombstone a.2 = false from Bool.eq_false_iff.mpr htomb, Bool.and_false]

variable [Platform]

@[simp] theorem recordReadKey_iter (it : TxnIterator B) : it.recordReadKey.iter = it.iter := by
  unfold recordReadKey
  split <;> rfl

/-- What is not deleted. -/
def live (l : List (Bytes × Bytes)) : List (Bytes × Bytes) := l.filter fun e => !deleted e

omit [Platform] in
theorem live_dropWhile (l : List (Bytes × Bytes)) :
    live (l.dropWhile deleted) = live l := by
  induction l with
  | nil => rfl
  | cons a l ih =>
    by_cases htomb : deleted a = true
    · rw [List.dropWhile_cons_of_pos htomb, ih, live, live, List.filter_cons_of_neg (by simp [htomb])]
    · rw [List.dropWhile_cons_of_neg htomb]

/-- The iterator stands at a live entry of the run, or at its end, and `out` is still to come. -/
def Shows (it : TxnIterator B) (out : List (Bytes × Bytes)) : Prop :=
  ∃ l, Yields Drained it.iter (l.dropWhile deleted) ∧ SortedRun l ∧ out = live l

theorem moveToNonDelete_shows {it : TxnIterator B} (h : Yields Drained it.iter l)
    (hs : SortedRun l) :
    ∃ it', moveToNonDelete it = (.ok (), it') ∧ it'.recordReadKey.Shows (live l) := by
  obtain ⟨iter', hmove, hiter'⟩ := moveToNonDeleteLoop_spec h hs h.length_le
  refine ⟨{ it with iter := iter' }, by rw [moveToNonDelete, hmove], l, ?_, hs, rfl⟩
  rw [recordReadKey_iter]
  exact hiter'

theorem Shows.drained {it : TxnIterator B} (h : it.Shows []) : Drained it := by
  obtain ⟨l, hl, hs, hout⟩ := h
  have hnil : (l.dropWhile deleted) = [] := by
    rw [List.dropWhile_eq_nil_iff]
    intro e he
    simpa using List.filter_eq_nil_iff.mp hout.symm e he
  rw [hnil] at hl
  refine Drained.of_invariant (fun it : TxnIterator B => Drained it.iter) (fun it hit => hit.isValid)
    (fun it hit => ⟨it.recordReadKey, ?_, ?_⟩) hl.done
  · have hskip : skipKey it.iter = (.ok (), it.iter) :=
      advanceWhile_of_stop (by rw [hit.isValid, Bool.false_and]) _
    have hmove : moveToNonDeleteLoop (remaining it.iter) it.iter = (.ok (), it.iter) :=
      moveToNonDeleteLoop_of_stop (by rw [hit.isValid, Bool.false_and]) _
    change next it = _
    simp only [next, hskip, moveToNonDelete, hmove]
  · rw [recordReadKey_iter]
    exact hit

theorem Shows.yields {it : TxnIterator B} {out : List (Bytes × Bytes)} (h : it.Shows out) :
    Yields Drained it out := by
  refine Yields.of_sim Shows (fun it hit => ⟨?_, hit.drained⟩) ?_ h
  · exact hit.drained.isValid
  rintro it a out ⟨l, hl, hs, hout⟩
  cases hdrop : l.dropWhile deleted with
  | nil =>
    rw [← live_dropWhile, hdrop] at hout
    cases hout
  | cons b l' =>
    have hsorted : SortedRun (b :: l') := by
      rw [← hdrop]
      exact hs.dropWhile _
    have hb : deleted b = false := by
      have hhead := List.head?_dropWhile_not deleted l
      rw [hdrop] at hhead
      simpa using hhead
    rw [← live_dropWhile, hdrop, live, List.filter_cons_of_pos (by rw [hb]; rfl), List.cons.injEq]
      at hout
    obtain ⟨rfl, rfl⟩ := hout
    rw [hdrop] at hl
    obtain ⟨hvalid, hkey, hvalue, -⟩ := hl.head
    obtain ⟨iter', hskip, hiter'⟩ := skipKey_spec hl hsorted
    obtain ⟨it', hmove, hshows⟩ :=
      moveToNonDelete_shows (show Yields Drained ({ it with iter := iter' } : TxnIterator B).iter l'
        from hiter') hsorted.tail
    refine ⟨hvalid, hkey, hvalue, ?_, it'.recordReadKey, ?_, hshows⟩
    · have hlen := (List.length_filter_le (fun e => !deleted e) l').trans_lt
        (Nat.lt_succ_self _)
      exact hlen.trans_le hl.length_le
    · change next it = _
      simp only [next, hskip, hmove]

/-- **The iterator hands out what is not deleted.** -/
theorem create_yields (txn : Transaction) (h : Yields Drained iter l) (hs : SortedRun l) :
    ∃ it, create txn iter = .ok it ∧ Yields Drained it (live l) := by
  obtain ⟨it', hmove, hshows⟩ := moveToNonDelete_shows
    (show Yields Drained (⟨txn, iter⟩ : TxnIterator B).iter l from h) hs
  exact ⟨it'.recordReadKey, by rw [create, hmove], hshows.yields⟩

end TxnIterator

/-! ## What a transaction reads -/

namespace Transaction

/-- The writes laid over the store: of the writes of a key the last one counts. -/
def Overlay (writes : List WriteBatchRecord) (store : Bytes → Bytes → Prop) (k v : Bytes) : Prop :=
  match (writes.filter fun w => w.key = k).getLast? with
  | some w => v = w.value
  | none => store k v

/-- The map that the writes leave. -/
def overlayMap (writes : List WriteBatchRecord) : SkipMap Bytes :=
  SkipMap.new.insertAll (writes.map fun w => (w.key, w.value))

theorem mem_overlayMap {writes : List WriteBatchRecord} {k v : Bytes} :
    (k, v) ∈ (overlayMap writes).entries ↔
      ((writes.filter fun w => w.key = k).getLast?).map WriteBatchRecord.value = some v := by
  have hnew : (k, v) ∉ (SkipMap.new : SkipMap Bytes).entries := List.not_mem_nil
  unfold overlayMap
  rw [SkipMap.mem_insertAll, List.filter_map, List.getLast?_map, Option.map_eq_some_iff,
    Option.map_eq_some_iff]
  simp only [hnew, and_false, or_false, Function.comp_def, Prod.mk.injEq]
  constructor
  -- the two sides decide `w.key = k` by different instances
  · rintro ⟨w, hw, -, hvalue⟩
    exact ⟨w, by convert hw, hvalue⟩
  · rintro ⟨w, hw, hvalue⟩
    have hkey : w.key = k := by simpa using (List.mem_filter.mp (List.mem_of_getLast? hw)).2
    exact ⟨w, by convert hw, hkey, hvalue⟩

theorem overlay_iff {writes : List WriteBatchRecord} {store : Bytes → Bytes → Prop} {k v : Bytes} :
    Overlay writes store k v ↔ (k, v) ∈ (overlayMap writes).entries ∨
      k ∉ runKeys (overlayMap writes).entries ∧ store k v := by
  unfold Overlay
  rw [mem_runKeys]
  simp only [mem_overlayMap]
  cases (writes.filter fun w => decide (w.key = k)).getLast? with
  | none => simp
  | some w => simp [eq_comm]

theorem overlayMap_key_ne {writes : List WriteBatchRecord} (h : ∀ w ∈ writes, w.key ≠ []) :
    ∀ e ∈ (overlayMap writes).entries, e.1 ≠ [] := by
  rintro ⟨k, v⟩ he
  rw [mem_overlayMap, Option.map_eq_some_iff] at he
  obtain ⟨w, hw, -⟩ := he
  obtain ⟨hmem, hkey⟩ := List.mem_filter.mp (List.mem_of_getLast? hw)
  have hk : w.key = k := by simpa using hkey
  rw [← hk]
  exact h w hmem

variable [Platform]

@[simp] theorem recordHash_localStorage (txn : Transaction) (key : Bytes) :
    (txn.recordHash key).localStorage = txn.localStorage := rfl

@[simp] theorem recordHash_readTs (txn : Transaction) (key : Bytes) :
    (txn.recordHash key).readTs = txn.readTs := rfl

theorem write_localStorage (txn : Transaction) (w : WriteBatchRecord) :
    (txn.write w).localStorage = txn.localStorage.insert w.key w.value := by
  cases w <;> rfl

theorem write_readTs (txn : Transaction) (w : WriteBatchRecord) : (txn.write w).readTs = txn.readTs := by
  cases w <;> rfl

theorem writeAll_localStorage (txn : Transaction) (writes : List WriteBatchRecord) :
    (txn.writeAll writes).localStorage =
      txn.localStorage.insertAll (writes.map fun w => (w.key, w.value)) := by
  induction writes generalizing txn with
  | nil => rfl
  | cons w writes ih =>
    rw [writeAll, List.foldl_cons, ← writeAll, ih, write_localStorage]
    rfl

theorem writeAll_readTs (txn : Transaction) (writes : List WriteBatchRecord) :
    (txn.writeAll writes).readTs = txn.readTs := by
  induction writes generalizing txn with
  | nil => rfl
  | cons w writes ih => rw [writeAll, List.foldl_cons, ← writeAll, ih, write_readTs]

variable {inner : LsmStorageInner} {contents : ℕ → List Entry} {txn : Transaction}
  {writes : List WriteBatchRecord}

/-- The merged scan hands out the overlay. -/
theorem scan_yields (h : inner.state.Holds contents)
    (hlocal : txn.localStorage = overlayMap writes) (hkeys : ∀ w ∈ writes, w.key ≠ [])
    (lower upper : Bound Bytes) :
    ∃ it out, txn.scan inner lower upper = .ok it ∧ Yields Drained it out ∧ SortedRun out ∧
      ∀ k v, (k, v) ∈ out ↔ (lower.AboveLower k ∧ upper.BelowUpper k) ∧ v ≠ [] ∧
        Overlay writes (inner.state.Sees contents txn.readTs) k v := by
  obtain ⟨lsmIter, stored, hscan, hlsm, hstored, hmem⟩ :=
    LsmStorageState.scanWithTs_yields h lower upper txn.readTs
  have hrange : SortedRun (txn.localStorage.range lower upper) :=
    txn.localStorage.sorted.filter _
  have hlocalIter : Yields Drained (TxnLocalIterator.create txn.localStorage lower upper)
      (txn.localStorage.range lower upper) := by
    refine TxnLocalIterator.create_yields ?_ lower upper
    rw [hlocal]
    exact overlayMap_key_ne hkeys
  obtain ⟨it, hcreate, hit⟩ := TxnIterator.create_yields txn
    (TwoMergeIterator.create_yields_drained hlocalIter hlsm hrange hstored)
    (hrange.leftUnion hstored)
  refine ⟨it, _, ?_, hit, (hrange.leftUnion hstored).filter _, fun k v => ?_⟩
  · rw [scan, hscan]
    exact hcreate
  · have hin : ∀ e : Bytes × Bytes, e ∈ txn.localStorage.range lower upper ↔
        e ∈ (overlayMap writes).entries ∧ lower.AboveLower e.1 ∧ upper.BelowUpper e.1 := by
      intro e
      rw [hlocal, SkipMap.range, List.mem_filter, decide_eq_true_iff]
    have hkeysIn : k ∈ runKeys (txn.localStorage.range lower upper) ↔
        k ∈ runKeys (overlayMap writes).entries ∧ lower.AboveLower k ∧ upper.BelowUpper k := by
      simp only [mem_runKeys, hin, exists_and_right]
    have hlive : (!TxnIterator.deleted (k, v)) = true ↔ v ≠ [] := by
      simp [TxnIterator.deleted]
    rw [TxnIterator.live, List.mem_filter, hlive, mem_leftUnion hrange hstored, hin, hkeysIn, hmem,
      overlay_iff]
    tauto

/-- The lookup finds the overlay. -/
theorem get_eq (h : inner.state.Holds contents)
    (hbloom : ∀ id ∈ inner.state.listedIds, ∀ t, inner.state.sstables.lookup id = some t →
      t.BloomBuiltFrom (contents id))
    (hlocal : txn.localStorage = overlayMap writes) (key : Bytes) :
    ∃ o, (txn.get inner key).1 = .ok o ∧ ∀ v, o = some v ↔ v ≠ [] ∧
      Overlay writes (inner.state.Sees contents txn.readTs) key v := by
  unfold get
  simp only [recordHash_localStorage, recordHash_readTs, hlocal, overlay_iff]
  cases hget : (overlayMap writes).get key with
  | some value =>
    have hentry := SkipMap.get_eq_some_iff.mp hget
    have honly : ∀ v, (key, v) ∈ (overlayMap writes).entries ↔ v = value := by
      intro v
      rw [← SkipMap.get_eq_some_iff, hget, Option.some.injEq, eq_comm]
    refine ⟨_, rfl, fun v => ?_⟩
    have hkey : key ∈ runKeys (overlayMap writes).entries := fst_mem_runKeys hentry
    rw [honly]
    simp only [hkey, not_true, false_and, or_false]
    cases value with
    | nil => simp
    | cons b bs =>
      simp only [List.isEmpty_cons, Bool.false_eq_true, if_false, Option.some.injEq]
      constructor
      · rintro rfl
        exact ⟨List.cons_ne_nil _ _, rfl⟩
      · rintro ⟨-, rfl⟩
        rfl
  | none =>
    have hnone : ∀ v, (key, v) ∉ (overlayMap writes).entries := by
      intro v hmem
      rw [← SkipMap.get_eq_some_iff, hget] at hmem
      cases hmem
    have hkey : key ∉ runKeys (overlayMap writes).entries := by
      intro hmem
      obtain ⟨v, hv⟩ := mem_runKeys.mp hmem
      exact hnone v hv
    obtain ⟨o, hstore, hsees⟩ := LsmStorageState.getWithTs_eq h hbloom key txn.readTs
    refine ⟨o, hstore, fun v => ?_⟩
    rw [hsees]
    simp only [hnone, hkey, not_false_eq_true, true_and, false_or]
    exact (and_iff_right_of_imp fun hv => hv.1).symm

/-- **A transaction reads its own writes over its snapshot**, and its lookup agrees with its
scan. -/
theorem scan_and_get_overlay (inner : LsmStorageInner) (contents : ℕ → List Entry)
    (h : inner.state.Holds contents)
    (hbloom : ∀ id ∈ inner.state.listedIds, ∀ t, inner.state.sstables.lookup id = some t →
      t.BloomBuiltFrom (contents id))
    (txn₀ : Transaction) (hnew : txn₀.localStorage = SkipMap.new) (writes : List WriteBatchRecord)
    (hkeys : ∀ w ∈ writes, w.key ≠ []) :
    (∀ lower upper, ∃ it out, (txn₀.writeAll writes).scan inner lower upper = .ok it ∧
      (∀ n, out.length ≤ n → collect n it = some out) ∧ (out.Pairwise fun x y => x.1 < y.1) ∧
      ∀ k v, (k, v) ∈ out ↔ (lower.AboveLower k ∧ upper.BelowUpper k) ∧ v ≠ [] ∧
        Overlay writes (inner.state.Sees contents txn₀.readTs) k v) ∧
    ∀ key, ∃ o it out, ((txn₀.writeAll writes).get inner key).1 = .ok o ∧
      (txn₀.writeAll writes).scan inner .unbounded .unbounded = .ok it ∧
      (∀ n, out.length ≤ n → collect n it = some out) ∧ ∀ v, o = some v ↔ (key, v) ∈ out := by
  have hlocal : (txn₀.writeAll writes).localStorage = overlayMap writes := by
    rw [writeAll_localStorage, hnew]
    rfl
  rw [← writeAll_readTs txn₀ writes]
  refine ⟨fun lower upper => ?_, fun key => ?_⟩
  · obtain ⟨it, out, hscan, hit, hsorted, hmem⟩ := scan_yields h hlocal hkeys lower upper
    exact ⟨it, out, hscan, fun n hn => hit.collect hn, hsorted, hmem⟩
  · obtain ⟨it, out, hscan, hit, -, hmem⟩ := scan_yields h hlocal hkeys .unbounded .unbounded
    obtain ⟨o, hget, hsees⟩ := get_eq h hbloom hlocal key
    refine ⟨o, it, out, hget, hscan, fun n hn => hit.collect hn, fun v => ?_⟩
    rw [hsees, hmem]
    exact (and_iff_right ⟨trivial, trivial⟩).symm

end Transaction

namespace Transaction

section SmallStore

attribute [local instance] shortKeyPlatform

/-- An engine whose state is the small store. -/
def smallEngine (t₁ t₂ t₃ : SsTable) : LsmStorageInner :=
  { state := LsmStorageState.smallStore t₁ t₂ t₃
    disk := Disk.empty
    nextSstId := 5
    latestCommitTs := 7
    options := ⟨4096, 2 ^ 20, 50, .noCompaction, false⟩ }

/-- A transaction that overwrites key 2, deletes key 1 after writing it, and deletes a new key. -/
theorem scan_and_get_overlay_small : ∃ t₁ t₂ t₃,
    (∀ lower upper, ∃ it out,
      (((smallEngine t₁ t₂ t₃).newTxn true).writeAll
        [.put [2] [9], .put [1] [8], .del [1], .put [4] []]).scan (smallEngine t₁ t₂ t₃) lower upper =
          .ok it ∧
      (∀ n, out.length ≤ n → collect n it = some out) ∧ (out.Pairwise fun x y => x.1 < y.1) ∧
      ∀ k v, (k, v) ∈ out ↔ (lower.AboveLower k ∧ upper.BelowUpper k) ∧ v ≠ [] ∧
        Overlay [.put [2] [9], .put [1] [8], .del [1], .put [4] []]
          ((smallEngine t₁ t₂ t₃).state.Sees LsmStorageState.smallContents 7) k v) ∧
    ∀ key, ∃ o it out,
      ((((smallEngine t₁ t₂ t₃).newTxn true).writeAll
        [.put [2] [9], .put [1] [8], .del [1], .put [4] []]).get (smallEngine t₁ t₂ t₃) key).1 =
          .ok o ∧
      (((smallEngine t₁ t₂ t₃).newTxn true).writeAll
        [.put [2] [9], .put [1] [8], .del [1], .put [4] []]).scan (smallEngine t₁ t₂ t₃) .unbounded
          .unbounded = .ok it ∧
      (∀ n, out.length ≤ n → collect n it = some out) ∧ ∀ v, o = some v ↔ (key, v) ∈ out := by
  obtain ⟨t₁, t₂, t₃, -, -, -, hholds, hbloom⟩ := LsmStorageState.exists_smallStore
  exact ⟨t₁, t₂, t₃, scan_and_get_overlay (smallEngine t₁ t₂ t₃) LsmStorageState.smallContents hholds
    hbloom ((smallEngine t₁ t₂ t₃).newTxn true) rfl _ (by decide)⟩

end SmallStore

end Transaction

end TinyLsm
