import TinyLsm.Iterators.StorageIterator

/-!
# The two-way merge (`iterators/two_merge_iterator.rs`)

`TwoMergeIterator` merges two iterators of different types.  It keeps no state of its own: every
call compares the two current keys, and on a tie shows the entry of `a` and advances both.
-/

namespace TinyLsm

open StorageIterator

/-- `TwoMergeIterator`. -/
structure TwoMergeIterator (A B : Type) where
  a : A
  b : B

namespace TwoMergeIterator

variable {A B κ : Type} [LinearOrder κ] [StorageIterator A κ] [StorageIterator B κ]

/-- The merge of two iterators, of which `a` wins. -/
def create (a : A) (b : B) : TwoMergeIterator A B := ⟨a, b⟩

/-- Whether the entry shown is that of `a`. -/
def showsA (m : TwoMergeIterator A B) : Bool :=
  if !isValid m.b then true
  else if !isValid m.a then false
  else decide (key m.a ≤ key m.b)

/-- Advance `a` and keep `b`. -/
def nextA (m : TwoMergeIterator A B) : Stepped (TwoMergeIterator A B) :=
  match StorageIterator.next m.a with
  | (r, a) => (r, ⟨a, m.b⟩)

/-- Advance `b` and keep `a`. -/
def nextB (m : TwoMergeIterator A B) : Stepped (TwoMergeIterator A B) :=
  match StorageIterator.next m.b with
  | (r, b) => (r, ⟨m.a, b⟩)

/-- Step the iterator that is shown, or both when their keys are equal. -/
def next (m : TwoMergeIterator A B) : Stepped (TwoMergeIterator A B) :=
  if !isValid m.b then m.nextA
  else if !isValid m.a then m.nextB
  else if key m.a < key m.b then m.nextA
  else if key m.b < key m.a then m.nextB
  else
    -- `self.a.next().and(self.b.next())`: both calls are made, the first `Err` is returned
    match StorageIterator.next m.a, StorageIterator.next m.b with
    | (.ok (), a), (r, b) => (r, ⟨a, b⟩)
    | (.error e, a), (_, b) => (.error e, ⟨a, b⟩)

instance : StorageIterator (TwoMergeIterator A B) κ where
  value m := if m.showsA then value m.a else value m.b
  key m := if m.showsA then key m.a else key m.b
  isValid m := isValid m.a || isValid m.b
  next := next
  remaining m := remaining m.a + remaining m.b

variable {P : A → Prop} {Q : B → Prop}

/-- The two iterators still have to hand out runs whose union is `out`. -/
def Holds (P : A → Prop) (Q : B → Prop) (m : TwoMergeIterator A B) (out : List (κ × Bytes)) :
    Prop :=
  ∃ la lb, Yields P m.a la ∧ Yields Q m.b lb ∧ SortedRun la ∧ SortedRun lb ∧
    out = leftUnion la lb

theorem next_spec {m : TwoMergeIterator A B} {x : κ × Bytes} {out : List (κ × Bytes)}
    (h : Holds P Q m (x :: out)) :
    isValid m = true ∧ key m = x.1 ∧ value m = x.2 ∧ out.length < remaining m ∧
      ∃ m', StorageIterator.next m = (.ok (), m') ∧ Holds P Q m' out := by
  obtain ⟨a, b⟩ := m
  obtain ⟨la, lb, ha, hb, hla, hlb, hout⟩ := h
  have hlen : out.length < remaining (⟨a, b⟩ : TwoMergeIterator A B) := by
    have h1 := length_leftUnion_le la lb
    rw [← hout, List.length_cons] at h1
    have h2 : la.length ≤ remaining a := ha.length_le
    have h3 : lb.length ≤ remaining b := hb.length_le
    show out.length < remaining a + remaining b
    omega
  rcases lb with _ | ⟨y, lb⟩
  · -- `b` is exhausted
    rw [leftUnion_nil_right] at hout
    subst hout
    have hvb := hb.isValid_eq_false_iff.mpr rfl
    obtain ⟨hva, hka, hwa, a', hna, ha'⟩ := ha.head
    have hshow : showsA (⟨a, b⟩ : TwoMergeIterator A B) = true := by simp [showsA, hvb]
    refine ⟨?_, ?_, ?_, hlen, ⟨a', b⟩, ?_, out, [], ha', hb, hla.tail, hlb, by simp⟩
    · show (isValid a || isValid b) = true
      rw [hva, Bool.true_or]
    · show (if showsA _ then key a else key b) = x.1
      rw [hshow, if_pos rfl, hka]
    · show (if showsA _ then value a else value b) = x.2
      rw [hshow, if_pos rfl, hwa]
    · show next _ = _
      simp [next, nextA, hvb, hna]
  obtain ⟨hvb, hkb, hwb, b', hnb, hb'⟩ := hb.head
  rcases la with _ | ⟨z, la⟩
  · -- `a` is exhausted
    rw [leftUnion_nil_left] at hout
    simp only [List.cons.injEq] at hout
    obtain ⟨rfl, rfl⟩ := hout
    have hva := ha.isValid_eq_false_iff.mpr rfl
    have hshow : showsA (⟨a, b⟩ : TwoMergeIterator A B) = false := by simp [showsA, hva, hvb]
    refine ⟨?_, ?_, ?_, hlen, ⟨a, b'⟩, ?_, [], out, ha, hb', hla, hlb.tail, by simp⟩
    · show (isValid a || isValid b) = true
      rw [hvb, Bool.or_true]
    · show (if showsA _ then key a else key b) = x.1
      rw [hshow, if_neg Bool.false_ne_true, hkb]
    · show (if showsA _ then value a else value b) = x.2
      rw [hshow, if_neg Bool.false_ne_true, hwb]
    · show next _ = _
      simp [next, nextB, hva, hvb, hnb]
  obtain ⟨hva, hka, hwa, a', hna, ha'⟩ := ha.head
  have hvalid : isValid (⟨a, b⟩ : TwoMergeIterator A B) = true := by
    show (isValid a || isValid b) = true
    rw [hva, Bool.true_or]
  rcases lt_trichotomy z.1 y.1 with hlt | heq | hgt
  · rw [leftUnion_cons_of_lt hlt] at hout
    simp only [List.cons.injEq] at hout
    obtain ⟨rfl, rfl⟩ := hout
    have hshow : showsA (⟨a, b⟩ : TwoMergeIterator A B) = true := by
      simp [showsA, hva, hvb, hka, hkb, hlt.le]
    refine ⟨hvalid, ?_, ?_, hlen, ⟨a', b⟩, ?_, la, y :: lb, ha', hb, hla.tail, hlb, rfl⟩
    · show (if showsA _ then key a else key b) = x.1
      rw [hshow, if_pos rfl, hka]
    · show (if showsA _ then value a else value b) = x.2
      rw [hshow, if_pos rfl, hwa]
    · show next _ = _
      simp [next, nextA, hva, hvb, hka, hkb, hlt, hna]
  · rw [leftUnion_cons_of_eq heq] at hout
    simp only [List.cons.injEq] at hout
    obtain ⟨rfl, rfl⟩ := hout
    have hshow : showsA (⟨a, b⟩ : TwoMergeIterator A B) = true := by
      simp [showsA, hva, hvb, hka, hkb, heq]
    refine ⟨hvalid, ?_, ?_, hlen, ⟨a', b'⟩, ?_, la, lb, ha', hb', hla.tail, hlb.tail, rfl⟩
    · show (if showsA _ then key a else key b) = x.1
      rw [hshow, if_pos rfl, hka]
    · show (if showsA _ then value a else value b) = x.2
      rw [hshow, if_pos rfl, hwa]
    · show next _ = _
      simp [next, hva, hvb, hka, hkb, heq, hna, hnb]
  · rw [leftUnion_cons_of_gt hgt] at hout
    simp only [List.cons.injEq] at hout
    obtain ⟨rfl, rfl⟩ := hout
    have hshow : showsA (⟨a, b⟩ : TwoMergeIterator A B) = false := by
      simp [showsA, hva, hvb, hka, hkb, hgt]
    refine ⟨hvalid, ?_, ?_, hlen, ⟨a, b'⟩, ?_, z :: la, lb, ha, hb', hla, hlb.tail, rfl⟩
    · show (if showsA _ then key a else key b) = x.1
      rw [hshow, if_neg Bool.false_ne_true, hkb]
    · show (if showsA _ then value a else value b) = x.2
      rw [hshow, if_neg Bool.false_ne_true, hwb]
    · show next _ = _
      simp [next, nextB, hva, hvb, hka, hkb, hgt, hgt.not_gt, hnb]

/-- **The merge hands out the left-biased union of its two sides.** -/
theorem create_yields {a : A} {b : B} {la lb : List (κ × Bytes)} (ha : Yields P a la)
    (hb : Yields Q b lb) (hla : SortedRun la) (hlb : SortedRun lb) :
    Yields (fun m => P m.a ∧ Q m.b) (create a b) (leftUnion la lb) := by
  refine Yields.of_sim (Holds P Q) ?_ (fun m x l hm => next_spec hm) ⟨la, lb, ha, hb, hla, hlb, rfl⟩
  rintro ⟨a, b⟩ ⟨la, lb, ha, hb, -, -, hout⟩
  obtain ⟨rfl, rfl⟩ := leftUnion_eq_nil hout.symm
  refine ⟨?_, ha.done, hb.done⟩
  show (isValid a || isValid b) = false
  rw [ha.isValid_eq_false_iff.mpr rfl, hb.isValid_eq_false_iff.mpr rfl]
  rfl

theorem drained {m : TwoMergeIterator A B} (ha : Drained m.a) (hb : Drained m.b) : Drained m := by
  refine Drained.of_invariant (fun m : TwoMergeIterator A B => Drained m.a ∧ Drained m.b) ?_ ?_
    ⟨ha, hb⟩
  · intro m hm
    show (isValid m.a || isValid m.b) = false
    rw [hm.1.isValid, hm.2.isValid]
    rfl
  · intro m hm
    obtain ⟨a', hna, ha'⟩ := hm.1.next
    refine ⟨⟨a', m.b⟩, ?_, ha', hm.2⟩
    show next m = _
    simp [next, nextA, hm.2.isValid, hna]

theorem create_yields_drained {a : A} {b : B} {la lb : List (κ × Bytes)} (ha : Yields Drained a la)
    (hb : Yields Drained b lb) (hla : SortedRun la) (hlb : SortedRun lb) :
    Yields Drained (create a b) (leftUnion la lb) :=
  (create_yields ha hb hla hlb).mono fun _ hm => drained hm.1 hm.2

end TwoMergeIterator

end TinyLsm
