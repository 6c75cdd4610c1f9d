import TinyLsm.Runtime

/-!
# The iterator interface (`iterators.rs`)

`StorageIterator` is the Rust trait.  `next` mutates its receiver also when it returns `Err`, so
here it gives back the outcome together with the iterator it leaves behind.  `key` and `value` are
only called on a valid iterator.

The trait has loops written over it (`while iter.is_valid() && ... { iter.next()? }`), and nothing
in the trait says that they end.  `remaining` is a bound on the number of entries still to come,
and `advanceWhile` recurses on it.

`Yields P it l` says what an iterator does: it hands out exactly the entries of `l`, every call of
`next` on the way succeeds, `remaining` is an honest bound, and at the end the iterator is invalid
and satisfies `P`.  With `P := Drained` the iterator stays invalid under further calls of `next`.
-/

namespace TinyLsm

/-- What `next(&mut self) -> Result<()>` leaves behind: the result and the iterator. -/
abbrev Stepped (I : Type) := Outcome Unit × I

/-- The trait `StorageIterator`. -/
class StorageIterator (I : Type) (κ : outParam Type) where
  value : I → Bytes
  key : I → κ
  isValid : I → Bool
  next : I → Stepped I
  /-- A bound on the number of entries still to come. -/
  remaining : I → ℕ

namespace StorageIterator

variable {I κ : Type} [StorageIterator I κ]

/-- `while it.is_valid() && q(it.key(), it.value()) { it.next()? }`, for at most `n` steps. -/
def advanceWhile (q : κ × Bytes → Bool) : ℕ → I → Stepped I
  | 0, it =>
    if isValid it && q (key it, value it) then (.error (.panic "iterator did not end"), it)
    else (.ok (), it)
  | n + 1, it =>
    if isValid it && q (key it, value it) then
      match next it with
      | (.ok (), it') => advanceWhile q n it'
      | (.error e, it') => (.error e, it')
    else (.ok (), it)

theorem advanceWhile_of_stop {q : κ × Bytes → Bool} {it : I}
    (h : (isValid it && q (key it, value it)) = false) (n : ℕ) :
    advanceWhile q n it = (.ok (), it) := by
  cases n <;> rw [advanceWhile, h, if_neg Bool.false_ne_true]

theorem advanceWhile_of_step {q : κ × Bytes → Bool} {it it' : I} (hvalid : isValid it = true)
    (hq : q (key it, value it) = true) (hnext : next it = (.ok (), it')) (n : ℕ) :
    advanceWhile q (n + 1) it = advanceWhile q n it' := by
  rw [advanceWhile, hvalid, hq, Bool.true_and, if_pos rfl, hnext]

/-- The iterator after `n` further calls of `next`. -/
def nextN : ℕ → I → I
  | 0, it => it
  | n + 1, it => nextN n (next it).2

/-- Invalid now and after any number of calls of `next`, each of which returns `Ok`. -/
def Drained (it : I) : Prop :=
  ∀ n, isValid (nextN n it) = false ∧ (next (nextN n it)).1 = .ok ()

theorem Drained.isValid {it : I} (h : Drained it) : isValid it = false := (h 0).1

theorem Drained.next {it : I} (h : Drained it) :
    ∃ it', next it = (.ok (), it') ∧ Drained it' :=
  ⟨(StorageIterator.next it).2, Prod.ext (h 0).2 rfl, fun n => h (n + 1)⟩

/-- An invariant that makes every state invalid, and that `next` keeps without failing. -/
theorem Drained.of_invariant (R : I → Prop) (hvalid : ∀ it, R it → StorageIterator.isValid it = false)
    (hnext : ∀ it, R it → ∃ it', StorageIterator.next it = (.ok (), it') ∧ R it') {it : I}
    (h : R it) : Drained it := by
  intro n
  induction n generalizing it with
  | zero =>
    obtain ⟨it', hn, -⟩ := hnext it h
    exact ⟨hvalid it h, by rw [nextN, hn]⟩
  | succ n ih =>
    obtain ⟨it', hn, h'⟩ := hnext it h
    rw [nextN, hn]
    exact ih h'

/-- The iterator hands out exactly `l` and ends in a state with `P`. -/
inductive Yields (P : I → Prop) : I → List (κ × Bytes) → Prop where
  | nil {it : I} (hvalid : isValid it = false) (hP : P it) : Yields P it []
  | cons {it it' : I} {l : List (κ × Bytes)} (hvalid : isValid it = true)
      (hremaining : l.length < remaining it) (hnext : next it = (.ok (), it'))
      (htail : Yields P it' l) : Yields P it ((key it, value it) :: l)

namespace Yields

variable {P Q : I → Prop} {it : I} {l : List (κ × Bytes)}

theorem length_le (h : Yields P it l) : l.length ≤ remaining it := by
  cases h with
  | nil => exact Nat.zero_le _
  | cons _ hremaining _ _ => exact hremaining

theorem isValid_iff (h : Yields P it l) : isValid it = true ↔ l ≠ [] := by
  cases h with
  | nil hvalid _ => simp [hvalid]
  | cons hvalid _ _ _ => simp [hvalid]

theorem isValid_eq_false_iff (h : Yields P it l) : isValid it = false ↔ l = [] := by
  cases h with
  | nil hvalid _ => simp [hvalid]
  | cons hvalid _ _ _ => simp [hvalid]

theorem done (h : Yields P it []) : P it := by
  cases h with
  | nil _ hP => exact hP

/-- What a valid iterator shows, and where the next call leads. -/
theorem head {a : κ × Bytes} (h : Yields P it (a :: l)) :
    isValid it = true ∧ key it = a.1 ∧ value it = a.2 ∧
      ∃ it', next it = (.ok (), it') ∧ Yields P it' l := by
  cases h with
  | cons hvalid _ hnext htail => exact ⟨hvalid, rfl, rfl, _, hnext, htail⟩

theorem mono (h : Yields P it l) (hPQ : ∀ it, P it → Q it) : Yields Q it l := by
  induction h with
  | nil hvalid hP => exact .nil hvalid (hPQ _ hP)
  | cons hvalid hremaining hnext _ ih => exact .cons hvalid hremaining hnext ih

/-- An iterator does one thing only. -/
theorem unique {l' : List (κ × Bytes)} (h : Yields P it l) (h' : Yields Q it l') : l = l' := by
  induction h generalizing l' with
  | nil hvalid _ => exact ((h'.isValid_eq_false_iff).mp hvalid).symm
  | @cons it it₁ l hvalid _ hnext _ ih =>
    cases h' with
    | nil hvalid' _ =>
      rw [hvalid] at hvalid'
      exact absurd hvalid' (by simp)
    | cons _ _ hnext' htail' =>
      rw [hnext] at hnext'
      cases hnext'
      rw [ih htail']

/-- **The simulation rule.**  A relation between iterators and the lists still to come, which
shows the head and steps to the tail, gives `Yields`. -/
theorem of_sim (R : I → List (κ × Bytes) → Prop)
    (hnil : ∀ it, R it [] → isValid it = false ∧ P it)
    (hcons : ∀ it a l, R it (a :: l) → isValid it = true ∧ key it = a.1 ∧ value it = a.2 ∧
      l.length < remaining it ∧ ∃ it', next it = (.ok (), it') ∧ R it' l)
    (h : R it l) : Yields P it l := by
  induction l generalizing it with
  | nil => exact .nil (hnil it h).1 (hnil it h).2
  | cons a l ih =>
    obtain ⟨hvalid, hkey, hvalue, hremaining, it', hnext, h'⟩ := hcons it a l h
    have ha : a = (key it, value it) := by rw [hkey, hvalue]
    rw [ha]
    exact .cons hvalid hremaining hnext (ih h')

/-- A loop that skips entries skips them from the list. -/
theorem advanceWhile (h : Yields P it l) (q : κ × Bytes → Bool) {n : ℕ} (hn : l.length ≤ n) :
    ∃ it', advanceWhile q n it = (.ok (), it') ∧ Yields P it' (l.dropWhile q) := by
  induction h generalizing n with
  | @nil it hvalid hP =>
    exact ⟨it, advanceWhile_of_stop (by rw [hvalid, Bool.false_and]) n, .nil hvalid hP⟩
  | @cons it it₁ l hvalid hremaining hnext htail ih =>
    by_cases hq : q (key it, value it) = true
    · rcases n with _ | n
      · simp at hn
      obtain ⟨it', hadv, hit'⟩ := ih (Nat.le_of_succ_le_succ hn)
      rw [advanceWhile_of_step hvalid hq hnext, List.dropWhile_cons_of_pos hq]
      exact ⟨it', hadv, hit'⟩
    · refine ⟨it, advanceWhile_of_stop (by simp [hq]) n, ?_⟩
      rw [List.dropWhile_cons_of_neg hq]
      exact .cons hvalid hremaining hnext htail

/-- What is still to come after some calls of `next`. -/
theorem nextN (h : Yields P it l) {n : ℕ} (hn : n ≤ l.length) :
    Yields P (nextN n it) (l.drop n) := by
  induction n generalizing it l with
  | zero => exact h
  | succ n ih =>
    cases h with
    | nil => simp at hn
    | cons _ _ hnext htail =>
      rw [StorageIterator.nextN, hnext]
      exact ih htail (Nat.le_of_succ_le_succ hn)

theorem nextN_add (m n : ℕ) (it : I) :
    StorageIterator.nextN (m + n) it = StorageIterator.nextN n (StorageIterator.nextN m it) := by
  induction m generalizing it with
  | zero => rw [Nat.zero_add]; rfl
  | succ m ih => rw [Nat.succ_add, StorageIterator.nextN, ih]; rfl

/-- An iterator that is invalid once stays invalid. -/
theorem stays_invalid (h : Yields Drained it l) {m : ℕ}
    (hm : isValid (StorageIterator.nextN m it) = false) (n : ℕ) :
    isValid (StorageIterator.nextN (m + n) it) = false := by
  rcases le_total m l.length with hle | hge
  · have hdrop := h.nextN hle
    rw [hdrop.isValid_eq_false_iff] at hm
    rw [hm] at hdrop
    rw [nextN_add]
    exact (hdrop.done n).1
  · -- past its last entry the iterator is drained
    obtain ⟨k, rfl⟩ := Nat.exists_eq_add_of_le hge
    have hend := h.nextN le_rfl
    rw [List.drop_length] at hend
    rw [Nat.add_assoc, nextN_add]
    exact (hend.done (k + n)).1

end Yields

/-- An iterator over the items of a list: `f l a` shows `a` and has `l` still to come, and an item
whose key is an end mark makes it invalid. -/
structure ShowsItems (f : List (κ × Bytes) → κ × Bytes → I) (isEnd : κ → Bool) (last : κ × Bytes) :
    Prop where
  shows : ∀ l a, isValid (f l a) = (!isEnd a.1) ∧ key (f l a) = a.1 ∧ value (f l a) = a.2
  remaining : ∀ l a, l.length < remaining (f l a)
  next_nil : ∀ a, next (f [] a) = (.ok (), f [] last)
  next_cons : ∀ b l a, next (f (b :: l) a) = (.ok (), f l b)
  last_isEnd : isEnd last.1 = true

namespace ShowsItems

variable {f : List (κ × Bytes) → κ × Bytes → I} {isEnd : κ → Bool} {last : κ × Bytes}

theorem drained (h : ShowsItems f isEnd last) {a : κ × Bytes} (ha : isEnd a.1 = true) :
    Drained (f [] a) := by
  refine Drained.of_invariant (fun it => ∃ a, isEnd a.1 = true ∧ it = f [] a) ?_ ?_ ⟨a, ha, rfl⟩
  · rintro _ ⟨a, ha, rfl⟩
    rw [(h.shows [] a).1, ha]
    rfl
  · rintro _ ⟨a, -, rfl⟩
    exact ⟨_, h.next_nil a, last, h.last_isEnd, rfl⟩

/-- Items without an end mark are all handed out. -/
theorem yields_next (h : ShowsItems f isEnd last) {l : List (κ × Bytes)}
    (hl : ∀ a ∈ l, isEnd a.1 = false) (a : κ × Bytes) : Yields Drained (next (f l a)).2 l := by
  induction l generalizing a with
  | nil =>
    rw [h.next_nil]
    refine .nil ?_ (h.drained h.last_isEnd)
    rw [(h.shows [] last).1, h.last_isEnd]
    rfl
  | cons b l ih =>
    obtain ⟨hb, hl⟩ := List.forall_mem_cons.mp hl
    obtain ⟨hvalid, hkey, hvalue⟩ := h.shows l b
    have hok : (next (f l b)).1 = .ok () := by
      cases l with
      | nil => rw [h.next_nil]
      | cons c l => rw [h.next_cons]
    rw [h.next_cons]
    have hcons : Yields Drained (f l b) ((key (f l b), value (f l b)) :: l) :=
      .cons (by rw [hvalid, hb]; rfl) (h.remaining l b) (Prod.ext hok rfl) (ih hl b)
    rwa [hkey, hvalue] at hcons

end ShowsItems

/-- The entries that a loop over the iterator sees, when every call on the way succeeds. -/
inductive Visits : I → List (κ × Bytes) → Prop where
  | nil {it : I} (hvalid : isValid it = false) : Visits it []
  | cons {it it' : I} {l : List (κ × Bytes)} (hvalid : isValid it = true)
      (hnext : next it = (.ok (), it')) (htail : Visits it' l) : Visits it ((key it, value it) :: l)

theorem Visits.unique {it : I} {l l' : List (κ × Bytes)} (h : Visits it l) (h' : Visits it l') :
    l = l' := by
  induction h generalizing l' with
  | nil hvalid =>
    cases h' with
    | nil _ => rfl
    | cons hvalid' _ _ =>
      rw [hvalid] at hvalid'
      cases hvalid'
  | cons hvalid hnext _ ih =>
    cases h' with
    | nil hvalid' =>
      rw [hvalid] at hvalid'
      cases hvalid'
    | cons _ hnext' htail' =>
      rw [hnext] at hnext'
      cases hnext'
      rw [ih htail']

theorem Yields.visits {P : I → Prop} {it : I} {l : List (κ × Bytes)} (h : Yields P it l) :
    Visits it l := by
  induction h with
  | nil hvalid _ => exact .nil hvalid
  | cons hvalid _ hnext _ ih => exact .cons hvalid hnext ih

/-- What a consumer collects: entries until the iterator is invalid, `none` past `n` of them or at
a failed call. -/
def collect : ℕ → I → Option (List (κ × Bytes))
  | 0, it => if isValid it then none else some []
  | n + 1, it =>
    if isValid it then
      match next it with
      | (.ok (), it') => (collect n it').map ((key it, value it) :: ·)
      | (.error _, _) => none
    else some []

theorem Yields.collect {P : I → Prop} {it : I} {l : List (κ × Bytes)} (h : Yields P it l) {n : ℕ}
    (hn : l.length ≤ n) : collect n it = some l := by
  induction h generalizing n with
  | nil hvalid _ =>
    cases n <;> rw [StorageIterator.collect, hvalid, if_neg Bool.false_ne_true]
  | cons hvalid _ hnext _ ih =>
    rcases n with _ | n
    · simp at hn
    rw [StorageIterator.collect, if_pos hvalid, hnext]
    simp only [ih (Nat.le_of_succ_le_succ hn), Option.map_some]

end StorageIterator

end TinyLsm
