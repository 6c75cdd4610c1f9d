import TinyLsm.LsmStorage.Open
import TinyLsm.Mvcc.Txn

/-!
# What a transaction records (`mvcc/txn.rs`)

The hashes of a serializable transaction are a write set and a read set.  `put` and `delete` insert
into the second one, as `get` and the scan iterators do.  So after any calls the write set is empty
and the read set holds the hashes of all keys, read or written (`keyHashes_afterAll`), which is what
was asked for as long as nothing is written (`recordsExactly_iff`).
-/

namespace TinyLsm

namespace Transaction

open StorageIterator

/-- A call on a transaction or on one of its scan iterators.  The store and the local map are shared
with others: `get` and `scan` see the store as it is at the call, and `next` finds the merged
iterator as it stands at the call. -/
inductive Access where
  | get (inner : LsmStorageInner) (key : Bytes)
  | put (key value : Bytes)
  | delete (key : Bytes)
  | scan (inner : LsmStorageInner) (lower upper : Bound Bytes)
  | next (iter : TwoMergeIterator TxnLocalIterator (FusedIterator (LsmIterator LsmIteratorInner)))

/-- The keys passed to `put` or `delete`. -/
def Access.written : Access → List Bytes
  | .put key _ => [key]
  | .delete key => [key]
  | .get _ _ | .scan _ _ _ | .next _ => []

variable [Platform]

/-- The key that an iterator stands at, if it is valid. -/
def yielded {B : Type} [StorageIterator B Bytes] (it : TxnIterator B) : List Bytes :=
  if isValid it.iter then [key it.iter] else []

/-- The transaction after a call. -/
def after (txn : Transaction) : Access → Transaction
  | .get inner key => (txn.get inner key).2
  | .put key value => txn.put key value
  | .delete key => txn.delete key
  | .scan inner lower upper =>
    match txn.scan inner lower upper with
    | .ok it => it.txn
    | .error _ => txn
  | .next iter => (TxnIterator.next ⟨txn, iter⟩).2.txn

/-- The keys that a call reads: the one passed to `get`, or the one at which the iterator stands
when the call has returned. -/
def read (txn : Transaction) : Access → List Bytes
  | .get _ key => [key]
  | .scan inner lower upper =>
    match txn.scan inner lower upper with
    | .ok it => yielded it
    | .error _ => []
  | .next iter =>
    match TxnIterator.next ⟨txn, iter⟩ with
    | (.ok (), it) => yielded it
    | (.error _, _) => []
  | .put _ _ | .delete _ => []

/-- The transaction after some calls. -/
def afterAll (txn : Transaction) (accesses : List Access) : Transaction := accesses.foldl after txn

/-- The keys that some calls read, one after the other. -/
def readAll : Transaction → List Access → List Bytes
  | _, [] => []
  | txn, a :: accesses => txn.read a ++ (txn.after a).readAll accesses

/-- The hashes of some keys. -/
def hashes (keys : List Bytes) : Finset UInt32 := (keys.map Platform.hash32).toFinset

/-- The write set is made of the written keys and the read set of the read keys. -/
def RecordsExactly (txn : Transaction) (accesses : List Access) : Prop :=
  (txn.afterAll accesses).keyHashes =
    some (hashes (accesses.flatMap Access.written), hashes (txn.readAll accesses))

/-! ## One call -/

@[simp] theorem hashes_nil : hashes [] = ∅ := rfl

theorem hashes_append (keys keys' : List Bytes) :
    hashes (keys ++ keys') = hashes keys ∪ hashes keys' := by
  unfold hashes
  rw [List.map_append, List.toFinset_append]

theorem hashes_eq_empty_iff {keys : List Bytes} : hashes keys = ∅ ↔ keys = [] := by
  unfold hashes
  rw [List.toFinset_eq_empty_iff, List.map_eq_nil_iff]

/-- The hashes of some keys put into the read set, if there is one. -/
def insertRead (keyHashes : Option (Finset UInt32 × Finset UInt32)) (keys : List Bytes) :
    Option (Finset UInt32 × Finset UInt32) :=
  keyHashes.map fun p => (p.1, p.2 ∪ hashes keys)

@[simp] theorem insertRead_nil (keyHashes : Option (Finset UInt32 × Finset UInt32)) :
    insertRead keyHashes [] = keyHashes := by
  cases keyHashes <;> simp [insertRead]

theorem insertRead_insertRead (keyHashes : Option (Finset UInt32 × Finset UInt32))
    (keys keys' : List Bytes) :
    insertRead (insertRead keyHashes keys) keys' = insertRead keyHashes (keys ++ keys') := by
  cases keyHashes <;> simp [insertRead, hashes_append]

/-- The order of the keys does not matter. -/
theorem insertRead_perm {keys keys' : List Bytes} (h : keys.Perm keys')
    (keyHashes : Option (Finset UInt32 × Finset UInt32)) :
    insertRead keyHashes keys = insertRead keyHashes keys' := by
  have hhashes : hashes keys = hashes keys' := by
    unfold hashes
    exact List.toFinset_eq_of_perm _ _ (h.map _)
  unfold insertRead
  rw [hhashes]

theorem recordHash_keyHashes (txn : Transaction) (key : Bytes) :
    (txn.recordHash key).keyHashes = insertRead txn.keyHashes [key] := by
  have hset : ∀ readSet : Finset UInt32,
      insert (Platform.hash32 key) readSet = readSet ∪ hashes [key] := by
    intro readSet
    ext hash
    simp [hashes, or_comm]
  unfold recordHash insertRead
  simp only [hset]

theorem get_keyHashes (txn : Transaction) (inner : LsmStorageInner) (key : Bytes) :
    (txn.get inner key).2.keyHashes = insertRead txn.keyHashes [key] := by
  have htxn : (txn.get inner key).2 = txn.recordHash key := by
    unfold Transaction.get
    simp only
    split <;> rfl
  rw [htxn, recordHash_keyHashes]

section

variable {B : Type} [StorageIterator B Bytes]

/-- What an iterator records is what it yields. -/
theorem recordReadKey_keyHashes (it : TxnIterator B) :
    it.recordReadKey.txn.keyHashes = insertRead it.txn.keyHashes (yielded it.recordReadKey) := by
  have hyielded : yielded it.recordReadKey = yielded it := by
    unfold yielded
    rw [TxnIterator.recordReadKey_iter]
  rw [hyielded]
  unfold TxnIterator.recordReadKey yielded
  split
  · exact recordHash_keyHashes _ _
  · exact (insertRead_nil _).symm

omit [Platform] in
theorem moveToNonDelete_txn {it it' : TxnIterator B} {o : Outcome Unit}
    (h : TxnIterator.moveToNonDelete it = (o, it')) : it'.txn = it.txn := by
  unfold TxnIterator.moveToNonDelete at h
  rw [Prod.mk.injEq] at h
  rw [← h.2]

/-- Opening an iterator, which already yields a key. -/
theorem create_keyHashes {txn : Transaction} {iter : TwoMergeIterator TxnLocalIterator B}
    {it : TxnIterator B} (h : TxnIterator.create txn iter = .ok it) :
    it.txn.keyHashes = insertRead txn.keyHashes (yielded it) := by
  unfold TxnIterator.create at h
  split at h
  · rename_i it' hmove
    cases h
    rw [recordReadKey_keyHashes, moveToNonDelete_txn hmove]
  · cases h

/-- Moving an iterator; a call that fails records nothing. -/
theorem next_keyHashes {it it' : TxnIterator B} {o : Outcome Unit}
    (h : TxnIterator.next it = (o, it')) : it'.txn.keyHashes =
      insertRead it.txn.keyHashes (match o with | .ok () => yielded it' | .error _ => []) := by
  unfold TxnIterator.next at h
  split at h
  · cases h
    exact (insertRead_nil _).symm
  · split at h
    · rename_i hmove
      cases h
      rw [moveToNonDelete_txn hmove]
      exact (insertRead_nil _).symm
    · rename_i hmove
      cases h
      rw [recordReadKey_keyHashes, moveToNonDelete_txn hmove]

end

/-- **One call** puts the hash of the key into the read set, whether it reads or writes. -/
theorem after_keyHashes (txn : Transaction) (a : Access) :
    (txn.after a).keyHashes = insertRead txn.keyHashes (txn.read a ++ a.written) := by
  cases a with
  | get inner key => exact get_keyHashes txn inner key
  | put key value => exact recordHash_keyHashes txn key
  | delete key => exact recordHash_keyHashes txn key
  | scan inner lower upper =>
    simp only [after, read, Access.written, List.append_nil]
    cases hscan : txn.scan inner lower upper with
    | error e => exact (insertRead_nil _).symm
    | ok it =>
      unfold Transaction.scan at hscan
      obtain ⟨lsmIter, -, hcreate⟩ := Outcome.bind_eq_ok_iff.mp hscan
      exact create_keyHashes hcreate
  | next iter =>
    simp only [after, read, Access.written, List.append_nil]
    cases hnext : TxnIterator.next ⟨txn, iter⟩ with
    | mk o it =>
      have hit := next_keyHashes hnext
      cases o with
      | error e => exact hit
      | ok u => exact hit

/-! ## Any calls -/

/-- **Any calls**: the write set stays as it is, and all keys go into the read set. -/
theorem keyHashes_afterAll (txn : Transaction) (accesses : List Access) :
    (txn.afterAll accesses).keyHashes =
      insertRead txn.keyHashes (txn.readAll accesses ++ accesses.flatMap Access.written) := by
  induction accesses generalizing txn with
  | nil => exact (insertRead_nil _).symm
  | cons a accesses ih =>
    rw [afterAll, List.foldl_cons, ← afterAll, ih, after_keyHashes, insertRead_insertRead, readAll,
      List.flatMap_cons]
    refine insertRead_perm ?_ _
    rw [List.append_assoc, List.append_assoc]
    refine List.Perm.append_left _ ?_
    rw [← List.append_assoc, ← List.append_assoc]
    exact List.perm_append_comm.append_right _

/-- **A serializable transaction records exactly what it read and what it wrote if and only if it
writes nothing.** -/
theorem recordsExactly_iff (inner : LsmStorageInner) (accesses : List Access) :
    RecordsExactly (inner.newTxn true) accesses ↔ ∀ a ∈ accesses, a.written = [] := by
  have hall := keyHashes_afterAll (inner.newTxn true) accesses
  have hnew : (inner.newTxn true).keyHashes = some (∅, ∅) := rfl
  unfold RecordsExactly
  rw [hall, hnew, ← List.flatMap_eq_nil_iff, insertRead, Option.map_some, Option.some.injEq,
    Prod.mk.injEq, Finset.empty_union]
  constructor
  · rintro ⟨hwrite, -⟩
    exact hashes_eq_empty_iff.mp hwrite.symm
  · intro hnone
    rw [hnone, List.append_nil]
    exact ⟨rfl, rfl⟩

end Transaction

section

attribute [local instance] shortKeyPlatform

namespace Transaction

/-- The hash of a key that is only written is in the read set, and not in the write set. -/
theorem blind_put_is_read :
    ¬ RecordsExactly ((LsmStorageInner.newStore ⟨4096, 2 ^ 20, 50, .noCompaction, false⟩).newTxn true)
      [.put [1] [7]] := by
  unfold RecordsExactly
  rw [keyHashes_afterAll]
  decide

end Transaction

end

end TinyLsm
