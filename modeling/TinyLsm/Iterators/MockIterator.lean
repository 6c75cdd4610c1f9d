import TinyLsm.Iterators.Follows

/-!
# The iterator of the test harness (`tests/harness.rs`)

`MockIterator` hands out a vector, and the call of `next` that brings it to `error_when` fails.
In the source `key`, `value` and `is_valid` panic after that; here they show something, and what they
show is never asked for.
-/

namespace TinyLsm

open StorageIterator

/-- `MockIterator`. -/
structure MockIterator where
  data : List (Bytes × Bytes)
  errorWhen : Option ℕ
  index : ℕ

namespace MockIterator

/-- An iterator that never fails. -/
def new (data : List (Bytes × Bytes)) : MockIterator := ⟨data, none, 0⟩

/-- An iterator that fails when it steps to `errorWhen`. -/
def newWithError (data : List (Bytes × Bytes)) (errorWhen : ℕ) : MockIterator :=
  ⟨data, some errorWhen, 0⟩

/-- Step, and fail at the index where an error is asked for. -/
def next (it : MockIterator) : Stepped MockIterator :=
  let it := if it.index < it.data.length then { it with index := it.index + 1 } else it
  if it.errorWhen = some it.index then (.error (.err "fake error!"), it) else (.ok (), it)

instance : StorageIterator MockIterator Key where
  value it := (it.data.getD it.index ([], [])).2
  key it := ⟨(it.data.getD it.index ([], [])).1, tsDefault⟩
  isValid it := decide (it.index < it.data.length)
  next := next
  remaining it := it.data.length - it.index

/-- What the iterator still has to hand out. -/
def entries (it : MockIterator) : List Entry :=
  (it.data.drop it.index).map fun p => (⟨p.1, tsDefault⟩, p.2)

theorem next_of_lt {it : MockIterator} (h : it.index < it.data.length) :
    it.next = (if it.errorWhen = some (it.index + 1) then .error (.err "fake error!") else .ok (),
      { it with index := it.index + 1 }) := by
  rw [next]
  simp only [if_pos h]
  split <;> rfl

theorem entries_of_lt {it : MockIterator} (h : it.index < it.data.length) :
    it.entries = (StorageIterator.key it, StorageIterator.value it) ::
      entries { it with index := it.index + 1 } := by
  unfold entries
  rw [List.drop_eq_getElem_cons h, List.map_cons]
  show _ = ((⟨(it.data.getD it.index ([], [])).1, tsDefault⟩ : Key), (it.data.getD it.index ([], [])).2) :: _
  rw [List.getD_eq_getElem _ _ h]

theorem upto (it : MockIterator) : Upto it it.entries := by
  induction hn : it.data.length - it.index generalizing it with
  | zero =>
    have hge : it.data.length ≤ it.index := by omega
    rw [entries, List.drop_eq_nil_of_le hge]
    exact .nil (decide_eq_false (not_lt.mpr hge))
  | succ n ih =>
    have hlt : it.index < it.data.length := by omega
    have hvalid : isValid it = true := decide_eq_true hlt
    have hnext : StorageIterator.next it = it.next := rfl
    rw [next_of_lt hlt] at hnext
    rw [entries_of_lt hlt]
    by_cases herr : it.errorWhen = some (it.index + 1)
    · rw [if_pos herr] at hnext
      exact .fail hvalid (by rw [hnext]) _
    · rw [if_neg herr] at hnext
      exact .cons hvalid hnext (ih { it with index := it.index + 1 } (Nat.sub_eq_of_eq_add (by
        show it.data.length = n + (it.index + 1)
        omega)))

theorem not_failsWith {it : MockIterator} (h : it.errorWhen = none) (e : Fault) :
    ¬ FailsWith e it := by
  rintro ⟨it', hadv, hvalid', hfail⟩
  have hlt : ∀ {it : MockIterator}, isValid it = true → it.index < it.data.length := of_decide_eq_true
  induction hadv with
  | refl it =>
    change it.next.1 = _ at hfail
    rw [next_of_lt (hlt hvalid'), h, if_neg (by simp)] at hfail
    cases hfail
  | @head it it₁ _ hvalid hnext _ ih =>
    refine ih ?_ hvalid' hfail
    change it.next = _ at hnext
    rw [next_of_lt (hlt hvalid)] at hnext
    cases (Prod.mk.inj hnext).2
    exact h

/-- Without an `error_when` everything is handed out. -/
theorem visits {it : MockIterator} (h : it.errorWhen = none) : Visits it it.entries :=
  it.upto.visits (not_failsWith h)

end MockIterator

end TinyLsm
