import TinyLsm.LsmStorage.Preserved
import TinyLsm.Mvcc.KeyHashes

/-!
# Snapshot isolation

A store has any number of transactions at once, each at its own timestamp and with its own writes.
`Sessions` are a store and its open transactions; an `Act` is a call on the engine, the begin of a
transaction or an access of one.

`snapshot_isolation`: whatever happens in between, a transaction reads the store as it was when the
transaction began, with its own writes as one more batch.
-/

namespace TinyLsm

open LsmStorageInner StorageIterator

namespace Transaction

variable [Platform]

/-! ## What an access leaves of a transaction -/

/-- The local write of an access. -/
def Access.record? : Access → Option WriteBatchRecord
  | .put key value => some (.put key value)
  | .delete key => some (.del key)
  | .get _ _ | .scan _ _ _ | .next _ => none

/-- Only hashes have been recorded. -/
def SameData (txn txn' : Transaction) : Prop :=
  txn'.readTs = txn.readTs ∧ txn'.localStorage = txn.localStorage

section

variable {B : Type} [StorageIterator B Bytes]

theorem recordReadKey_sameData (it : TxnIterator B) : SameData it.txn it.recordReadKey.txn := by
  unfold TxnIterator.recordReadKey
  split <;> exact ⟨rfl, rfl⟩

theorem create_sameData {txn : Transaction} {iter : TwoMergeIterator TxnLocalIterator B}
    {it : TxnIterator B} (h : TxnIterator.create txn iter = .ok it) : SameData txn it.txn := by
  unfold TxnIterator.create at h
  split at h
  · rename_i it' hmove
    cases h
    have hsame := recordReadKey_sameData it'
    rwa [moveToNonDelete_txn hmove] at hsame
  · cases h

theorem next_sameData (it : TxnIterator B) : SameData it.txn (TxnIterator.next it).2.txn := by
  unfold TxnIterator.next
  split
  · exact ⟨rfl, rfl⟩
  · split
    · rename_i hmove
      rw [moveToNonDelete_txn hmove]
      exact ⟨rfl, rfl⟩
    · rename_i it' hmove
      have hsame := recordReadKey_sameData it'
      rwa [moveToNonDelete_txn hmove] at hsame

end

/-- **One access** keeps the timestamp, and of the local map changes what it writes. -/
theorem after_data (txn : Transaction) (a : Access) : (txn.after a).readTs = txn.readTs ∧
    (txn.after a).localStorage =
      txn.localStorage.insertAll (a.record?.toList.map fun w => (w.key, w.value)) := by
  cases a with
  | get inner key =>
    have htxn : (txn.get inner key).2 = txn.recordHash key := by
      unfold Transaction.get
      simp only
      split <;> rfl
    rw [show txn.after (.get inner key) = (txn.get inner key).2 from rfl, htxn]
    exact ⟨rfl, rfl⟩
  | put key value => exact ⟨rfl, rfl⟩
  | delete key => exact ⟨rfl, rfl⟩
  | scan inner lower upper =>
    simp only [after]
    cases hscan : txn.scan inner lower upper with
    | error e => exact ⟨rfl, rfl⟩
    | ok it =>
      unfold Transaction.scan at hscan
      obtain ⟨lsmIter, -, hcreate⟩ := Outcome.bind_eq_ok_iff.mp hscan
      exact create_sameData hcreate
  | next iter => exact next_sameData ⟨txn, iter⟩

/-! ## Reading a history -/

omit [Platform] in
/-- The overlay over a history is the history with one more batch. -/
theorem overlay_history {writes : List WriteBatchRecord} {batches : List (List WriteBatchRecord)}
    {store : Bytes → Bytes → Prop} {k : Bytes}
    (hstore : ∀ v, store k v ↔ History.get batches k = some v) (v : Bytes) :
    (v ≠ [] ∧ Overlay writes store k v) ↔ History.get (batches ++ [writes]) k = some v := by
  have hlast : History.last [writes] k =
      ((writes.filter fun w => w.key = k).getLast?).map WriteBatchRecord.value := by
    unfold History.last
    rw [List.flatten_singleton]
  rw [History.get_eq_some_iff, History.last_concat, hlast]
  unfold Overlay
  refine and_congr_right fun hne => ?_
  cases (writes.filter fun w => decide (w.key = k)).getLast? with
  | some w => simp [eq_comm]
  | none =>
    rw [Option.map_none, Option.none_or]
    exact (hstore v).trans (History.get_eq_some_iff.trans (and_iff_right hne))

/-- The transaction finds the map `f` on this store, by lookup and by scan. -/
def ReadsAs (txn : Transaction) (inner : LsmStorageInner) (f : Bytes → Option Bytes) : Prop :=
  (∀ k, (txn.get inner k).1 = .ok (f k)) ∧
  ∀ lower upper, ∃ it out, txn.scan inner lower upper = .ok it ∧
    (∀ n, out.length ≤ n → collect n it = some out) ∧ (out.Pairwise fun x y => x.1 < y.1) ∧
    ∀ k v, (k, v) ∈ out ↔ (lower.AboveLower k ∧ upper.BelowUpper k) ∧ f k = some v

theorem readsAs_history {inner : LsmStorageInner} {contents : ℕ → List Entry} {txn : Transaction}
    {writes : List WriteBatchRecord} {batches : List (List WriteBatchRecord)}
    (h : inner.state.Readable contents) (hlocal : txn.localStorage = overlayMap writes)
    (hkeys : ∀ w ∈ writes, w.key ≠ [])
    (hsees : ∀ k v, inner.state.Sees contents txn.readTs k v ↔ History.get batches k = some v) :
    txn.ReadsAs inner (History.get (batches ++ [writes])) := by
  refine ⟨fun k => ?_, fun lower upper => ?_⟩
  · obtain ⟨o, hget, ho⟩ := get_eq h.holds h.bloom hlocal k
    rw [hget, Except.ok.injEq]
    ext v
    rw [ho, overlay_history (hsees k)]
  · obtain ⟨it, out, hscan, hit, hsorted, hmem⟩ := scan_yields h.holds hlocal hkeys lower upper
    refine ⟨it, out, hscan, fun n hn => hit.collect hn, hsorted, fun k v => ?_⟩
    rw [hmem, overlay_history (hsees k)]

end Transaction

/-! ## A store and its transactions -/

/-- A store and its open transactions. -/
structure Sessions (ι : Type) where
  engine : LsmStorageInner
  txns : ι → Option Transaction

/-- The store that an access looks at, if it does. -/
def Transaction.Access.On (inner : LsmStorageInner) : Transaction.Access → Prop
  | .get store _ | .scan store _ _ => store = inner
  | .put _ _ | .delete _ | .next _ => True

namespace Sessions

open Transaction

/-- A call of the engine, the begin of a transaction, or a call on one. -/
inductive Act (ι : Type) where
  | call (op : Op)
  | newTxn (i : ι) (serializable : Bool)
  | access (i : ι) (a : Access)

variable {ι : Type}

/-- The call of the engine, if it is one. -/
def Act.op? : Act ι → Option Op
  | .call op => some op
  | .newTxn _ _ | .access _ _ => none

variable [DecidableEq ι]

/-- What an act writes into the transaction `i`. -/
def Act.record? (i : ι) : Act ι → Option WriteBatchRecord
  | .access j a => if j = i then a.record? else none
  | .call _ | .newTxn _ _ => none

variable [Platform]

/-- One act; a call on the engine returns `Ok` and meets `C`. -/
def Acts (C : LsmStorageInner → Op → Prop) (s : Sessions ι) : Act ι → Sessions ι → Prop
  | .call op, t => C s.engine op ∧ Step s.engine op t.engine ∧ t.txns = s.txns
  | .newTxn i serializable, t =>
    t = { s with txns := Function.update s.txns i (some (s.engine.newTxn serializable)) }
  | .access i a, t => a.On s.engine ∧ ∃ txn, s.txns i = some txn ∧
    t = { s with txns := Function.update s.txns i (some (txn.after a)) }

variable {C : LsmStorageInner → Op → Prop} {s t : Sessions ι} {acts : List (Act ι)} {a : Act ι} {i : ι}
  {txn : Transaction}

/-- The engine does what is called, whatever the transactions do. -/
theorem engine_run (h : Run (Acts C) s acts t) : RunOf C s.engine (acts.filterMap Act.op?) t.engine := by
  refine h.project Sessions.engine Act.op? (fun s a op t ha hstep => ?_) fun s a t ha hstep => ?_
  · cases a with
    | call op' =>
      cases ha
      exact ⟨hstep.1, hstep.2.1⟩
    | newTxn i serializable => cases ha
    | access i a => cases ha
  · cases a with
    | call op => cases ha
    | newTxn i serializable => rw [show t = _ from hstep]
    | access i a =>
      obtain ⟨-, txn, -, rfl⟩ := hstep
      rfl

/-- **One act** changes of a transaction what is written into it. -/
theorem Acts.keeps (hstep : Acts C s a t) (hnew : ∀ b, a ≠ .newTxn i b) (htxn : s.txns i = some txn) :
    ∃ txn', t.txns i = some txn' ∧ txn'.readTs = txn.readTs ∧ txn'.localStorage =
      txn.localStorage.insertAll ((a.record? i).toList.map fun w => (w.key, w.value)) := by
  cases a with
  | call op => exact ⟨txn, by rw [hstep.2.2, htxn], rfl, rfl⟩
  | newTxn j serializable =>
    have hne : i ≠ j := fun h => hnew serializable (by rw [h])
    refine ⟨txn, ?_, rfl, rfl⟩
    rw [show t = _ from hstep]
    exact (Function.update_of_ne hne _ _).trans htxn
  | access j a =>
    obtain ⟨-, txn', htxn', rfl⟩ := hstep
    by_cases hj : j = i
    · subst hj
      obtain rfl := Option.some.inj (htxn'.symm.trans htxn)
      have hdata := after_data txn' a
      refine ⟨_, Function.update_self .., hdata.1, ?_⟩
      rw [Act.record?, if_pos rfl]
      exact hdata.2
    · refine ⟨txn, (Function.update_of_ne (Ne.symm hj) _ _).trans htxn, rfl, ?_⟩
      rw [Act.record?, if_neg hj]
      rfl

/-- A transaction keeps its timestamp and collects what is written into it. -/
theorem txn_run (h : Run (Acts C) s acts t) (hnew : ∀ b, .newTxn i b ∉ acts)
    (htxn : s.txns i = some txn) : ∃ txn', t.txns i = some txn' ∧ txn'.readTs = txn.readTs ∧
      txn'.localStorage = txn.localStorage.insertAll
        ((acts.filterMap (Act.record? i)).map fun w => (w.key, w.value)) := by
  induction h with
  | nil => exact ⟨txn, htxn, rfl, rfl⟩
  | @snoc acts a t u hrun hstep ih =>
    obtain ⟨txn', htxn', hts, hlocal⟩ := ih fun b hb => hnew b (List.mem_append_left _ hb)
    obtain ⟨txn'', htxn'', hts', hlocal'⟩ := Acts.keeps hstep
      (fun b hb => hnew b (by rw [hb]; simp)) htxn'
    refine ⟨txn'', htxn'', hts'.trans hts, ?_⟩
    rw [hlocal', hlocal, ← SkipMap.insertAll_append, ← List.map_append, List.filterMap_append]
    rfl

/-- **Snapshot isolation**: a transaction reads the store as it was when the transaction began, under
its own writes, whatever the engine and the other transactions do meanwhile. -/
theorem snapshot_isolation {options : LsmStorageOptions} {e₀ : LsmStorageInner} {serializable : Bool}
    {before after : List (Act ι)} (hblock : options.blockSize ≤ 65535) (hfresh : Fresh options e₀)
    (hrun : Run (Acts fun e op => op.KeepsReadable e ∧ op.HidesNothing e) ⟨e₀, fun _ => none⟩
      (before ++ .newTxn i serializable :: after) s)
    (hnew : ∀ b, .newTxn i b ∉ after)
    (hkeys : ∀ w ∈ after.filterMap (Act.record? i), w.key ≠ []) :
    ∃ txn, s.txns i = some txn ∧ txn.ReadsAs s.engine (History.get
      ((before.filterMap Act.op?).filterMap Op.batch ++ [after.filterMap (Act.record? i)])) := by
  rw [← List.singleton_append, ← List.append_assoc] at hrun
  obtain ⟨t, hbegin, hafter⟩ := hrun.exists_append
  obtain ⟨u, hbefore, hstep⟩ := hbegin.exists_last
  have ht : t = { u with txns := Function.update u.txns i (some (u.engine.newTxn serializable)) } := hstep
  obtain ⟨txn, htxn, hts, hlocal⟩ := txn_run hafter hnew
    (show t.txns i = some (u.engine.newTxn serializable) by rw [ht]; exact Function.update_self ..)
  refine ⟨txn, htxn, ?_⟩
  -- the engine has run on
  obtain ⟨contents, hu⟩ := RunOf.shows hblock hfresh (engine_run hbefore)
  obtain ⟨contents', hs⟩ := RunOf.shows hblock hfresh (engine_run (hbegin.append hafter))
  have hbatches : ((before ++ [Act.newTxn i serializable] ++ after).filterMap Act.op?).filterMap Op.batch =
      (before.filterMap Act.op?).filterMap Op.batch ++ (after.filterMap Act.op?).filterMap Op.batch := by
    simp [List.filterMap_append, List.filterMap_cons, Act.op?]
  rw [hbatches] at hs
  have hread : txn.readTs = commitTs ((before.filterMap Act.op?).filterMap Op.batch).length := by
    rw [hts, commitTs, ← hu.latest, UInt64.ofNat_toNat]
    rfl
  refine readsAs_history (hs.settled.sound hs.nonempty).state.readable hlocal hkeys fun k v => ?_
  rw [hread, hs.sees_iff (by rw [List.length_append]; exact Nat.le_add_right _ _), List.take_left]

end Sessions

section

attribute [local instance] shortKeyPlatform

namespace Sessions

open Transaction

/-- The store has gone on and another transaction has written, and neither is seen. -/
theorem snapshot_isolation_small : ∃ (s : Sessions Bool) (txn : Transaction), s.txns true = some txn ∧
    s.engine.get [1] = .ok (some [8]) ∧ (txn.get s.engine [1]).1 = .ok (some [7]) ∧
    (txn.get s.engine [2]).1 = .ok (some [5]) := by
  have hfinal : ((afterCall (newStore smallOptions) (.writeBatch [.put [1] [7]])).bind fun e =>
      (afterCall e (.writeBatch [.put [1] [8]])).map fun e' => (e'.get [1]).toOption) =
      some (some (some [8])) := by
    decide +kernel
  obtain ⟨e, he, hrest⟩ := Option.bind_eq_some_iff.mp hfinal
  obtain ⟨e', he', hget⟩ := Option.map_eq_some_iff.mp hrest
  have hcall : ∀ {e e' : LsmStorageInner} {v : UInt8},
      afterCall e (.writeBatch [.put [1] [v]]) = some e' →
      ((Op.writeBatch [.put [1] [v]]).KeepsReadable e ∧ (Op.writeBatch [.put [1] [v]]).HidesNothing e) ∧
        Step e (.writeBatch [.put [1] [v]]) e' := by
    intro e e' v h
    have hproper : (Op.writeBatch [.put [1] [v]]).Proper e := by
      simp [Op.Proper, WriteBatchRecord.key]
    exact ⟨(Op.plain_of_isPlain hproper
      (by simp [Op.isPlain, WriteBatchRecord.key, WriteBatchRecord.value])).keepsReadable, step_of_afterCall h⟩
  let C (e : LsmStorageInner) (op : Op) : Prop := op.KeepsReadable e ∧ op.HidesNothing e
  let s₀ : Sessions Bool := ⟨newStore smallOptions, fun _ => none⟩
  let s₁ : Sessions Bool := ⟨e, fun _ => none⟩
  let s₂ : Sessions Bool := ⟨e, Function.update s₁.txns true (some (e.newTxn false))⟩
  let s₃ : Sessions Bool := ⟨e', s₂.txns⟩
  let s₄ : Sessions Bool := ⟨e', Function.update s₃.txns false (some (e'.newTxn true))⟩
  let s₅ : Sessions Bool :=
    ⟨e', Function.update s₄.txns true (some ((e.newTxn false).after (.put [2] [5])))⟩
  let s₆ : Sessions Bool :=
    ⟨e', Function.update s₅.txns false (some ((e'.newTxn true).after (.put [1] [6])))⟩
  have hrun : Run (Acts C) s₀ ([.call (.writeBatch [.put [1] [7]])] ++ .newTxn true false ::
      [.call (.writeBatch [.put [1] [8]]), .newTxn false true, .access true (.put [2] [5]),
        .access false (.put [1] [6])]) s₆ := by
    have h₁ : Acts C s₀ (.call (.writeBatch [.put [1] [7]])) s₁ := ⟨(hcall he).1, (hcall he).2, rfl⟩
    have h₂ : Acts C s₁ (.newTxn true false) s₂ := rfl
    have h₃ : Acts C s₂ (.call (.writeBatch [.put [1] [8]])) s₃ := ⟨(hcall he').1, (hcall he').2, rfl⟩
    have h₄ : Acts C s₃ (.newTxn false true) s₄ := rfl
    have h₅ : Acts C s₄ (.access true (.put [2] [5])) s₅ := ⟨trivial, _, rfl, rfl⟩
    have h₆ : Acts C s₅ (.access false (.put [1] [6])) s₆ := ⟨trivial, _, rfl, rfl⟩
    exact (((((Run.nil.snoc h₁).snoc h₂).snoc h₃).snoc h₄).snoc h₅).snoc h₆
  obtain ⟨txn, htxn, hreads, -⟩ := snapshot_isolation (by decide) (fresh_newStore smallOptions) hrun
    (by simp) (by decide)
  refine ⟨s₆, txn, htxn, ?_, hreads [1], hreads [2]⟩
  change e'.get [1] = _
  generalize e'.get [1] = o at hget ⊢
  cases o with
  | error f => cases hget
  | ok o => rw [Option.some.inj hget]

end Sessions

end

end TinyLsm
