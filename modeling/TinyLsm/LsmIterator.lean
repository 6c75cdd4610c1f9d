import TinyLsm.SkipMap
import TinyLsm.Iterators.StorageIterator

/-!
# The iterator of a scan (`lsm_iterator.rs`)

`LsmIterator` turns a run of versions into what a reader at a timestamp sees: it skips versions
that are too new, keys whose version is a tombstone, and the older versions of a key it has
shown, and it stops at the end bound.

`new_yields`: over an inner iterator that hands out a sorted run `l` it hands out `visible` of
`l`, cut off at the end bound.  Past the bound it keeps moving, and since keys only grow it stays
invalid.
-/

namespace TinyLsm

/-- The empty value is a tombstone. -/
abbrev isTombstone : Bytes → Bool := List.isEmpty

/-- `LsmIterator`, over any inner iterator of versioned keys. -/
structure LsmIterator (I : Type) where
  inner : I
  endBound : Bound Bytes
  readTimestamp : UInt64
  prevKey : Option Bytes

namespace LsmIterator

open StorageIterator

variable {I : Type} [StorageIterator I Key]

/-- `while inner.is_valid() && q(..) { inner.next()? }`. -/
def skipWhile (q : Entry → Bool) (inner : I) : Stepped I := advanceWhile q (remaining inner) inner

/-- The loop of `skip_tompstone`, for at most `n` tombstones. -/
def skipTombstoneLoop (readTimestamp : UInt64) : ℕ → I → Stepped I
  | 0, inner => (.error (.panic "iterator did not end"), inner)
  | n + 1, inner =>
    match skipWhile (fun e => readTimestamp < e.1.ts) inner with
    | (.error e, inner) => (.error e, inner)
    | (.ok (), inner) =>
      if isValid inner && isTombstone (value inner) then
        match skipWhile (fun e => e.1.keyRef = (key inner).keyRef) inner with
        | (.error e, inner) => (.error e, inner)
        | (.ok (), inner) => skipTombstoneLoop readTimestamp n inner
      else (.ok (), inner)

/-- Skip versions that are too new and keys that are deleted at the read timestamp. -/
def skipTombstone (it : LsmIterator I) : Stepped (LsmIterator I) :=
  let (o, inner) := skipTombstoneLoop it.readTimestamp (remaining it.inner + 1) it.inner
  (o, { it with inner })

/-- The key that is shown does not exceed the end bound. -/
def inRange (it : LsmIterator I) : Bool := it.endBound.BelowUpper (key it.inner).keyRef

/-- Remember the key that is shown. -/
def rememberKey (it : LsmIterator I) : LsmIterator I :=
  if isValid it.inner then { it with prevKey := some (key it.inner).keyRef } else it

/-- An iterator at the first key that is not deleted. -/
def new (iter : I) (endBound : Bound Bytes) (readTimestamp : UInt64) : Outcome (LsmIterator I) :=
  match skipTombstone ⟨iter, endBound, readTimestamp, none⟩ with
  | (.error e, _) => .error e
  | (.ok (), it) => .ok it.rememberKey

/-- Skip the other versions of the key that was shown, and then deleted keys. -/
def next (it : LsmIterator I) : Stepped (LsmIterator I) :=
  match skipWhile (fun e => it.prevKey = some e.1.keyRef) it.inner with
  | (.error e, inner) => (.error e, { it with inner })
  | (.ok (), inner) =>
    match skipTombstone { it with inner } with
    | (.error e, it) => (.error e, it)
    | (.ok (), it) => (.ok (), it.rememberKey)

instance : StorageIterator (LsmIterator I) Bytes where
  value it := value it.inner
  key it := (key it.inner).keyRef
  isValid it := isValid it.inner && it.inRange
  next := next
  remaining it := remaining it.inner

end LsmIterator

/-- `FusedIterator`: no call goes through after a failed one. -/
structure FusedIterator (I : Type) where
  iter : I
  hasErrored : Bool

namespace FusedIterator

open StorageIterator

variable {I κ : Type} [StorageIterator I κ]

/-- No error has been seen. -/
def new (iter : I) : FusedIterator I := ⟨iter, false⟩

/-- Step, unless a step has failed before. -/
def next (it : FusedIterator I) : Stepped (FusedIterator I) :=
  if it.hasErrored then (.error (.err "iterator has previously errored"), it)
  else
    match StorageIterator.next it.iter with
    | (.ok (), iter) => (.ok (), { it with iter })
    | (.error e, iter) => (.error e, { iter, hasErrored := true })

instance : StorageIterator (FusedIterator I) κ where
  value it := value it.iter
  key it := key it.iter
  isValid it := !it.hasErrored && isValid it.iter
  next := next
  remaining it := remaining it.iter

theorem drained_new {iter : I} (h : Drained iter) : Drained (new iter) := by
  refine Drained.of_invariant (fun it : FusedIterator I => it.hasErrored = false ∧ Drained it.iter)
    (fun it hit => ?_) (fun it hit => ?_) ⟨rfl, h⟩
  · change (!it.hasErrored && isValid it.iter) = false
    rw [hit.2.isValid, Bool.and_false]
  · obtain ⟨iter', hnext, hd⟩ := hit.2.next
    refine ⟨{ it with iter := iter' }, ?_, hit.1, hd⟩
    change next it = _
    rw [next, hit.1, if_neg Bool.false_ne_true, hnext]

/-- Fusing changes nothing when no call fails. -/
theorem new_yields {iter : I} {l : List (κ × Bytes)} (h : Yields Drained iter l) :
    Yields Drained (new iter) l := by
  induction h with
  | nil hvalid hd =>
    refine .nil ?_ (drained_new hd)
    exact (Bool.and_eq_false_iff).mpr (Or.inr hvalid)
  | @cons it it' l hvalid hremaining hnext _ ih =>
    have hcons (hvalid' : isValid (new it) = true)
        (hnext' : StorageIterator.next (new it) = (.ok (), new it')) :
        Yields Drained (new it) ((key (new it), value (new it)) :: l) :=
      .cons hvalid' hremaining hnext' ih
    refine hcons ?_ ?_
    · change (!false && isValid it) = true
      rw [hvalid]
      rfl
    · change next (new it) = _
      rw [next, show (new it).hasErrored = false from rfl, if_neg Bool.false_ne_true,
        show (new it).iter = it from rfl, hnext]
      rfl

end FusedIterator

/-! ## What a scan hands out -/

namespace LsmIterator

open StorageIterator

variable {I : Type} [StorageIterator I Key] {inner : I} {l : List Entry} {r : UInt64}

theorem skipWhile_spec (h : Yields Drained inner l) (q : Entry → Bool) :
    ∃ inner', skipWhile q inner = (.ok (), inner') ∧ Yields Drained inner' (l.dropWhile q) :=
  h.advanceWhile q h.length_le

/-- The run starts with a version that a reader at `r` sees, or it is empty. -/
def StartsLive (r : UInt64) (l : List Entry) : Prop :=
  ∀ a ∈ l.head?, a.1.ts ≤ r ∧ isTombstone a.2 = false

theorem sameKey_iff (a b : Entry) : decide (b.1.keyRef = a.1.keyRef) = true ↔
    VersionKey.user b.1 = VersionKey.user a.1 := decide_eq_true_iff

/-- `skip_tompstone` moves to the next version that is seen, and what is seen stays the same. -/
theorem skipTombstoneLoop_spec (h : Yields Drained inner l) {n : ℕ} (hn : l.length < n) :
    ∃ inner' l', skipTombstoneLoop r n inner = (.ok (), inner') ∧ Yields Drained inner' l' ∧
      l'.Sublist l ∧ StartsLive r l' ∧ visible isTombstone r l' = visible isTombstone r l := by
  induction n generalizing inner l with
  | zero => omega
  | succ n ih =>
    obtain ⟨inner₁, hskip, h₁⟩ := skipWhile_spec h fun e => r < e.1.ts
    have hsub : (l.dropWhile fun e => decide (r < e.1.ts)).Sublist l := List.dropWhile_sublist _
    have hvis : visible isTombstone r (l.dropWhile fun e => decide (r < e.1.ts)) =
        visible isTombstone r l := visible_dropWhile_gt l
    rw [skipTombstoneLoop, hskip]
    simp only
    cases hl : l.dropWhile fun e => decide (r < e.1.ts) with
    | nil =>
      rw [hl] at h₁
      rw [h₁.isValid_eq_false_iff.mpr rfl, Bool.false_and, if_neg Bool.false_ne_true]
      have hlive : StartsLive r ([] : List Entry) := by
        intro a ha
        cases ha
      refine ⟨inner₁, [], rfl, h₁, List.nil_sublist _, hlive, ?_⟩
      rw [← hvis]
      exact congrArg _ hl.symm
    | cons a l₁ =>
      rw [hl] at h₁ hsub
      have hts : a.1.ts ≤ r := by
        have := List.head?_dropWhile_not (fun e : Entry => decide (r < e.1.ts)) l
        rw [hl] at this
        simpa using this
      have hvis' : visible isTombstone r (a :: l₁) = visible isTombstone r l := by
        rw [← hvis]
        exact congrArg _ hl.symm
      obtain ⟨hvalid, hkey, hvalue, -⟩ := h₁.head
      rw [hvalid, hvalue, Bool.true_and]
      by_cases htomb : isTombstone a.2 = true
      · -- a tombstone: all versions of its key are skipped
        rw [if_pos htomb, hkey]
        obtain ⟨inner₂, hskip₂, h₂⟩ := skipWhile_spec h₁ fun e => e.1.keyRef = a.1.keyRef
        rw [List.dropWhile_cons_of_pos (by simp)] at h₂
        have hdrop : (l₁.dropWhile fun e => decide (e.1.keyRef = a.1.keyRef)).Sublist l₁ :=
          List.dropWhile_sublist _
        have hlen : (l₁.dropWhile fun e => decide (e.1.keyRef = a.1.keyRef)).length < n := by
          have h1 := hdrop.length_le
          have h2 := hsub.length_le
          rw [List.length_cons] at h2
          omega
        obtain ⟨inner', l', hloop, h', hsub', hlive, hv'⟩ := ih h₂ hlen
        rw [hskip₂]
        simp only
        refine ⟨inner', l', hloop, h', ?_, hlive, ?_⟩
        · exact hsub'.trans (hdrop.trans ((List.sublist_cons_self a l₁).trans hsub))
        · rw [hv', ← hvis', visible_tomb (sameKey_iff a) hts htomb]
      · rw [if_neg htomb]
        refine ⟨inner₁, a :: l₁, rfl, h₁, hsub, fun b hb => ?_, hvis'⟩
        cases hb
        exact ⟨hts, by simpa using htomb⟩

/-- What is left of a run from the first key that satisfies the bound to the last. -/
def window (endBound : Bound Bytes) (r : UInt64) (l : List Entry) : List (Bytes × Bytes) :=
  (visible isTombstone r l).takeWhile fun x => endBound.BelowUpper x.1

/-- The iterator shows `out`: its inner iterator stands at a version that is seen, whose key it
remembers. -/
structure Shows (it : LsmIterator I) (out : List (Bytes × Bytes)) : Prop where
  intro ::
  run : ∃ l, Yields Drained it.inner l ∧ SortedRun l ∧ StartsLive it.readTimestamp l ∧
    (∀ a ∈ l.head?, it.prevKey = some a.1.keyRef) ∧ out = window it.endBound it.readTimestamp l

/-- After skipping, the iterator shows what is seen of the run it skipped in. -/
theorem skipTombstone_shows {it : LsmIterator I} (h : Yields Drained it.inner l)
    (hs : SortedRun l) :
    ∃ it', it.skipTombstone = (.ok (), it') ∧ it'.endBound = it.endBound ∧
      it'.readTimestamp = it.readTimestamp ∧
      it'.rememberKey.Shows (window it.endBound it.readTimestamp l) := by
  obtain ⟨inner', l', hloop, h', hsub, hlive, hvis⟩ :=
    skipTombstoneLoop_spec (r := it.readTimestamp) h (Nat.lt_succ_of_le h.length_le)
  refine ⟨{ it with inner := inner' }, ?_, rfl, rfl, l', ?_, hs.sublist hsub, ?_, ?_, ?_⟩
  · rw [skipTombstone, hloop]
  · unfold rememberKey
    split <;> exact h'
  · unfold rememberKey
    split <;> exact hlive
  · intro a ha
    obtain ⟨rest, rfl⟩ : ∃ rest, l' = a :: rest := List.head?_eq_some_iff.mp ha
    obtain ⟨hvalid, hkey, -⟩ := h'.head
    unfold rememberKey
    rw [if_pos hvalid]
    exact congrArg (fun k : Key => some k.keyRef) hkey
  · unfold rememberKey window
    split <;> rw [hvis]

/-- A live version at the head is what is seen first. -/
theorem window_cons {endBound : Bound Bytes} {a : Entry} (hlive : StartsLive r (a :: l)) :
    window endBound r (a :: l) =
      if endBound.BelowUpper a.1.keyRef then
        (a.1.keyRef, a.2) ::
          window endBound r (l.dropWhile fun e => e.1.keyRef = a.1.keyRef)
      else [] := by
  obtain ⟨hts, htomb⟩ := hlive a rfl
  unfold window
  rw [visible_live (sameKey_iff a) hts htomb, List.takeWhile_cons]
  simp only [decide_eq_true_eq, Key.user_eq]

/-- Past the bound nothing more is shown. -/
theorem window_eq_nil {endBound : Bound Bytes} {a : Entry} (hs : SortedRun (a :: l))
    (h : ¬endBound.BelowUpper a.1.keyRef) :
    window endBound r (l.dropWhile fun e => e.1.keyRef = a.1.keyRef) = [] := by
  unfold window
  cases hv : visible isTombstone r (l.dropWhile fun e => decide (e.1.keyRef = a.1.keyRef)) with
  | nil => rfl
  | cons x rest =>
    obtain ⟨b, hb, hu⟩ := user_mem_of_mem_visible (hs.tail.dropWhile _)
      (show x ∈ visible isTombstone r _ by rw [hv]; exact List.mem_cons_self)
    have hab : a.1 < b.1 := hs.head_lt ((List.dropWhile_sublist _).subset hb)
    rw [List.takeWhile_cons_of_neg]
    simp only [decide_eq_true_eq]
    intro hx
    refine h (hx.mono ?_)
    rw [← hu]
    exact Key.keyRef_le_of_le hab.le

/-- **One call of `next`.** -/
theorem Shows.step {it : LsmIterator I} {out : List (Bytes × Bytes)} (h : it.Shows out) :
    ∃ it', next it = (.ok (), it') ∧ it'.Shows out.tail := by
  obtain ⟨l, hl, hs, hlive, hprev, rfl⟩ := h.run
  obtain ⟨inner', hskip, hl'⟩ := skipWhile_spec hl fun e => it.prevKey = some e.1.keyRef
  have hs' : SortedRun (l.dropWhile fun e => decide (it.prevKey = some e.1.keyRef)) :=
    hs.dropWhile _
  obtain ⟨it', htomb, hend, hts, hshows⟩ :=
    skipTombstone_shows (show Yields Drained ({ it with inner := inner' } : LsmIterator I).inner _
      from hl') hs'
  refine ⟨it'.rememberKey, ?_, ?_⟩
  · unfold next
    rw [hskip]
    simp only [htomb]
  · have hwindow : window it.endBound it.readTimestamp
        (l.dropWhile fun e => decide (it.prevKey = some e.1.keyRef)) =
        (window it.endBound it.readTimestamp l).tail := by
      cases l with
      | nil =>
        unfold window
        simp
      | cons a l =>
        have hkey : it.prevKey = some a.1.keyRef := hprev a rfl
        have hcongr : (fun e : Entry => decide (it.prevKey = some e.1.keyRef)) =
            fun e => decide (e.1.keyRef = a.1.keyRef) := by
          funext e
          rw [hkey, decide_eq_decide, Option.some.injEq, eq_comm]
        rw [hcongr, List.dropWhile_cons_of_pos (by simp), window_cons hlive]
        split
        · rfl
        · rename_i hout
          exact window_eq_nil hs hout
    rw [← hwindow]
    exact hshows

theorem Shows.drained {it : LsmIterator I} (h : it.Shows []) : Drained it := by
  refine Drained.of_invariant (fun it : LsmIterator I => it.Shows []) (fun it hit => ?_)
    (fun it hit => hit.step) h
  obtain ⟨l, hl, hs, hlive, -, hout⟩ := hit.run
  change (isValid it.inner && it.inRange) = false
  cases l with
  | nil => rw [hl.isValid_eq_false_iff.mpr rfl, Bool.false_and]
  | cons a l =>
    obtain ⟨hvalid, hkey, -⟩ := hl.head
    rw [window_cons hlive] at hout
    split at hout
    · cases hout
    · rename_i hrange
      rw [hvalid, inRange, hkey, Bool.true_and]
      simpa using hrange

theorem Shows.yields {it : LsmIterator I} {out : List (Bytes × Bytes)} (h : it.Shows out) :
    Yields Drained it out := by
  refine Yields.of_sim Shows (fun it hit => ⟨hit.drained.isValid, hit.drained⟩)
    (fun it x rest hit => ?_) h
  obtain ⟨it', hnext, hit'⟩ := hit.step
  obtain ⟨l, hl, hs, hlive, -, hout⟩ := hit.run
  cases l with
  | nil =>
    unfold window at hout
    simp at hout
  | cons a l =>
    obtain ⟨hvalid, hkey, hvalue, -⟩ := hl.head
    have hlength : rest.length < (a :: l).length := by
      have h1 := congrArg List.length hout
      have h2 := (List.takeWhile_prefix (l := visible isTombstone it.readTimestamp (a :: l))
        fun x => decide (it.endBound.BelowUpper x.1)).length_le
      have h3 : (visible isTombstone it.readTimestamp (a :: l)).length ≤ (a :: l).length :=
        length_visible_le (a :: l)
      rw [List.length_cons] at h1
      change _ = (List.takeWhile _ _).length at h1
      omega
    rw [window_cons hlive] at hout
    split at hout
    · rename_i hrange
      rw [List.cons.injEq] at hout
      obtain ⟨rfl, -⟩ := hout
      refine ⟨?_, ?_, hvalue, lt_of_lt_of_le hlength hl.length_le, it', hnext, hit'⟩
      · change (isValid it.inner && it.inRange) = true
        rw [hvalid, inRange, hkey, Bool.true_and]
        simpa using hrange
      · exact congrArg Key.keyRef hkey
    · cases hout

/-- **A scan hands out what a reader at its timestamp sees**, up to the end bound. -/
theorem new_yields (h : Yields Drained inner l) (hs : SortedRun l) (endBound : Bound Bytes)
    (r : UInt64) :
    ∃ it, new inner endBound r = .ok it ∧ Yields Drained it (window endBound r l) := by
  obtain ⟨it', hskip, -, -, hshows⟩ :=
    skipTombstone_shows (show Yields Drained (⟨inner, endBound, r, none⟩ : LsmIterator I).inner l
      from h) hs
  refine ⟨it'.rememberKey, ?_, hshows.yields⟩
  unfold new
  rw [hskip]

end LsmIterator

end TinyLsm
