import Mathlib

/-!
# Sorted runs and their left-biased union

A *sorted run* is a list of key-value pairs whose keys strictly increase.  Runs are the
currency of every merge below: a merge reads several runs and produces one.

* `SortedRun.eq_of_mem_iff`: a run is determined by its set of pairs, so an equation between
  runs is proved by comparing memberships.
* `leftUnion` and `mem_leftUnion`: the two-way merge that keeps the left pair on equal keys.
* `unionAll` and `mem_unionAll`: its fold over a list of runs, in which the first run that has
  a key decides the value (`EarliestIn`).
* `IsUnionOf`: the same union, of a family of runs indexed by the natural numbers.  A k-way
  merge reorders its inputs while it runs, so it is the family and not the list that stays
  fixed; `IsUnionOf.head` is the step of such a merge.
-/

variable {κ ν : Type*}

/-- The keys of a list of pairs. -/
def runKeys (l : List (κ × ν)) : List κ := l.map Prod.fst

@[simp] theorem runKeys_nil : runKeys ([] : List (κ × ν)) = [] := rfl

@[simp] theorem runKeys_cons (a : κ × ν) (l : List (κ × ν)) :
    runKeys (a :: l) = a.1 :: runKeys l := rfl

@[simp] theorem runKeys_append (l r : List (κ × ν)) :
    runKeys (l ++ r) = runKeys l ++ runKeys r := List.map_append

theorem mem_runKeys {l : List (κ × ν)} {k : κ} : k ∈ runKeys l ↔ ∃ v, (k, v) ∈ l := by
  simp [runKeys]

theorem fst_mem_runKeys {l : List (κ × ν)} {a : κ × ν} (h : a ∈ l) : a.1 ∈ runKeys l :=
  List.mem_map_of_mem h

/-- The first run that has the key of `x` has `x`. -/
def EarliestIn : List (List (κ × ν)) → κ × ν → Prop
  | [], _ => False
  | l :: ls, x => x ∈ l ∨ x.1 ∉ runKeys l ∧ EarliestIn ls x

theorem EarliestIn.exists_mem {ls : List (List (κ × ν))} {x : κ × ν} (h : EarliestIn ls x) :
    ∃ l ∈ ls, x ∈ l := by
  induction ls with
  | nil => exact h.elim
  | cons l ls ih =>
    rcases h with h | ⟨-, h⟩
    · exact ⟨l, List.mem_cons_self, h⟩
    · obtain ⟨l', hl', hx⟩ := ih h
      exact ⟨l', List.mem_cons_of_mem _ hl', hx⟩

/-- Runs that have the same pairs at a key have the same earliest pair there. -/
theorem earliestIn_congr {ls ls' : List (List (κ × ν))} {k : κ}
    (h : List.Forall₂ (fun l l' => ∀ v, (k, v) ∈ l ↔ (k, v) ∈ l') ls ls') (v : ν) :
    EarliestIn ls (k, v) ↔ EarliestIn ls' (k, v) := by
  induction h with
  | nil => exact Iff.rfl
  | @cons l l' ls ls' hd _ ih =>
    have hkeys : k ∈ runKeys l ↔ k ∈ runKeys l' := by
      rw [mem_runKeys, mem_runKeys]
      exact exists_congr hd
    rw [EarliestIn, EarliestIn, hd v, ih, hkeys]

theorem earliestIn_append {ls ls' : List (List (κ × ν))} {x : κ × ν} :
    EarliestIn (ls ++ ls') x ↔ EarliestIn ls x ∨ (∀ l ∈ ls, x.1 ∉ runKeys l) ∧ EarliestIn ls' x := by
  induction ls with
  | nil => simp [EarliestIn]
  | cons l ls ih =>
    rw [List.cons_append, EarliestIn, EarliestIn, ih, List.forall_mem_cons, and_or_left, or_assoc,
      and_assoc]

theorem exists_earliestIn {ls : List (List (κ × ν))} {k : κ} {l : List (κ × ν)} (hl : l ∈ ls)
    (hk : k ∈ runKeys l) : ∃ v, EarliestIn ls (k, v) := by
  induction ls with
  | nil => cases hl
  | cons l' ls ih =>
    by_cases hk' : k ∈ runKeys l'
    · obtain ⟨v, hv⟩ := mem_runKeys.mp hk'
      exact ⟨v, Or.inl hv⟩
    · rcases List.mem_cons.mp hl with rfl | hl
      · exact absurd hk hk'
      · obtain ⟨v, hv⟩ := ih hl
        exact ⟨v, Or.inr ⟨hk', hv⟩⟩

theorem exists_earliestIn_iff {ls : List (List (κ × ν))} {k : κ} :
    (∃ v, EarliestIn ls (k, v)) ↔ ∃ l ∈ ls, k ∈ runKeys l := by
  constructor
  · rintro ⟨v, hv⟩
    obtain ⟨l, hl, hx⟩ := hv.exists_mem
    exact ⟨l, hl, fst_mem_runKeys hx⟩
  · rintro ⟨l, hl, hk⟩
    exact exists_earliestIn hl hk

/-- No two runs share a key. -/
def DisjointKeys (ls : List (List (κ × ν))) : Prop :=
  ls.Pairwise fun l r => ∀ k ∈ runKeys l, k ∉ runKeys r

theorem DisjointKeys.perm {ls ls' : List (List (κ × ν))} (h : DisjointKeys ls) (hp : ls.Perm ls') :
    DisjointKeys ls' :=
  hp.pairwise h fun {_ _} hlr k hr hl => hlr k hl hr

/-- Without shared keys every pair of every run counts. -/
theorem DisjointKeys.earliestIn_iff {ls : List (List (κ × ν))} (h : DisjointKeys ls) {x : κ × ν} :
    EarliestIn ls x ↔ ∃ l ∈ ls, x ∈ l := by
  induction ls with
  | nil => simp [EarliestIn]
  | cons l ls ih =>
    obtain ⟨hl, hls⟩ := List.pairwise_cons.mp h
    rw [EarliestIn, ih hls, List.exists_mem_cons_iff]
    refine or_congr_right (and_iff_right_of_imp ?_)
    rintro ⟨l', hl', hx⟩ hk
    exact hl l' hl' x.1 hk (fst_mem_runKeys hx)

/-- Runs that are put together still share no keys. -/
theorem DisjointKeys.flatten {gs : List (List (List (κ × ν)))} (h : DisjointKeys gs.flatten) :
    DisjointKeys (gs.map List.flatten) := by
  have hkeys : ∀ (g : List (List (κ × ν))) (k : κ), k ∈ runKeys g.flatten → ∃ l ∈ g, k ∈ runKeys l := by
    intro g k hk
    obtain ⟨v, hv⟩ := mem_runKeys.mp hk
    obtain ⟨l, hl, hx⟩ := List.mem_flatten.mp hv
    exact ⟨l, hl, fst_mem_runKeys hx⟩
  rw [DisjointKeys, List.pairwise_map]
  refine (List.pairwise_flatten.mp h).2.imp fun {g g'} hgg k hk hk' => ?_
  obtain ⟨l, hl, hkl⟩ := hkeys g k hk
  obtain ⟨l', hl', hkl'⟩ := hkeys g' k hk'
  exact hgg l hl l' hl' k hkl hkl'

variable [LinearOrder κ]

/-- The keys strictly increase. -/
def SortedRun (l : List (κ × ν)) : Prop := l.Pairwise fun a b => a.1 < b.1

instance (l : List (κ × ν)) : Decidable (SortedRun l) :=
  inferInstanceAs (Decidable (l.Pairwise fun a b => a.1 < b.1))

namespace SortedRun

@[simp] theorem nil : SortedRun ([] : List (κ × ν)) := List.Pairwise.nil

@[simp] theorem singleton (a : κ × ν) : SortedRun [a] := List.pairwise_singleton _ _

theorem cons_iff {a : κ × ν} {l : List (κ × ν)} :
    SortedRun (a :: l) ↔ (∀ b ∈ l, a.1 < b.1) ∧ SortedRun l := List.pairwise_cons

theorem tail {a : κ × ν} {l : List (κ × ν)} (h : SortedRun (a :: l)) : SortedRun l :=
  (cons_iff.mp h).2

theorem head_lt {a b : κ × ν} {l : List (κ × ν)} (h : SortedRun (a :: l)) (hb : b ∈ l) :
    a.1 < b.1 := (cons_iff.mp h).1 b hb

theorem head_le {a b : κ × ν} {l : List (κ × ν)} (h : SortedRun (a :: l)) (hb : b ∈ a :: l) :
    a.1 ≤ b.1 := by
  rcases List.mem_cons.mp hb with rfl | hb
  · exact le_rfl
  · exact (h.head_lt hb).le

theorem append_iff {l r : List (κ × ν)} :
    SortedRun (l ++ r) ↔ SortedRun l ∧ SortedRun r ∧ ∀ a ∈ l, ∀ b ∈ r, a.1 < b.1 :=
  List.pairwise_append

theorem sublist {l r : List (κ × ν)} (h : SortedRun r) (hs : l.Sublist r) : SortedRun l :=
  List.Pairwise.sublist hs h

theorem filter {l : List (κ × ν)} (h : SortedRun l) (p : κ × ν → Bool) :
    SortedRun (l.filter p) := h.sublist List.filter_sublist

theorem nodup {l : List (κ × ν)} (h : SortedRun l) : l.Nodup :=
  List.Pairwise.imp (fun hab heq => by subst heq; exact lt_irrefl _ hab) h

/-- A run is a function of its keys. -/
theorem inj {l : List (κ × ν)} (h : SortedRun l) {k : κ} {v w : ν} (hv : (k, v) ∈ l)
    (hw : (k, w) ∈ l) : v = w := by
  induction l with
  | nil => simp at hv
  | cons a l ih =>
    rcases List.mem_cons.mp hv with rfl | hv' <;> rcases List.mem_cons.mp hw with hw' | hw'
    · exact (Prod.mk.inj hw').2.symm
    · exact absurd (h.head_lt hw') (lt_irrefl _)
    · subst hw'
      exact absurd (h.head_lt hv') (lt_irrefl _)
    · exact ih h.tail hv' hw'

/-- **A run is determined by its set of pairs.** -/
theorem eq_of_mem_iff {l r : List (κ × ν)} (hl : SortedRun l) (hr : SortedRun r)
    (h : ∀ a, a ∈ l ↔ a ∈ r) : l = r := by
  have hperm : l.Perm r := (List.perm_ext_iff_of_nodup hl.nodup hr.nodup).mpr h
  refine hperm.eq_of_pairwise (fun a b _ _ hab hba => ?_) hl hr
  exact absurd (hab.trans hba) (lt_irrefl _)

/-- Skipping the pairs below a key keeps exactly the pairs from it on. -/
theorem dropWhile_eq_filter {l : List (κ × ν)} (h : SortedRun l) (k : κ) :
    l.dropWhile (fun a => a.1 < k) = l.filter fun a => k ≤ a.1 := by
  induction l with
  | nil => rfl
  | cons a l ih =>
    by_cases ha : a.1 < k
    · rw [List.dropWhile_cons_of_pos (by simpa using ha), List.filter_cons_of_neg (by simpa using ha)]
      exact ih h.tail
    · rw [List.dropWhile_cons_of_neg (by simpa using ha)]
      refine (List.filter_eq_self.mpr fun b hb => ?_).symm
      simpa using (not_lt.mp ha).trans (h.head_le hb)

theorem mem_dropWhile_lt {l : List (κ × ν)} (h : SortedRun l) {k : κ} {a : κ × ν} :
    a ∈ l.dropWhile (fun a => a.1 < k) ↔ a ∈ l ∧ k ≤ a.1 := by
  rw [h.dropWhile_eq_filter, List.mem_filter]
  simp

theorem dropWhile {l : List (κ × ν)} (h : SortedRun l) (p : κ × ν → Bool) :
    SortedRun (l.dropWhile p) := h.sublist (List.dropWhile_sublist p)

/-- On a run a condition that holds of the smaller of two keys whenever it holds of the larger one
cuts off a prefix. -/
theorem takeWhile_eq_filter {l : List (κ × ν)} (h : SortedRun l) {p : κ × ν → Bool}
    (hp : ∀ a b, a.1 < b.1 → p b = true → p a = true) : l.takeWhile p = l.filter p := by
  induction l with
  | nil => rfl
  | cons a l ih =>
    by_cases ha : p a = true
    · rw [List.takeWhile_cons_of_pos ha, List.filter_cons_of_pos ha, ih h.tail]
    · rw [List.takeWhile_cons_of_neg ha, List.filter_cons_of_neg ha]
      refine (List.filter_eq_nil_iff.mpr fun b hb hpb => ha ?_).symm
      exact hp a b (h.head_lt hb) hpb

/-- Removing the smallest key is removing the head. -/
theorem filter_ne_head {k : κ} {v : ν} {l : List (κ × ν)} (h : SortedRun ((k, v) :: l)) :
    ((k, v) :: l).filter (fun a => a.1 ≠ k) = l := by
  rw [List.filter_cons_of_neg (by simp)]
  exact List.filter_eq_self.mpr fun b hb => by simpa using (h.head_lt hb).ne'

/-- Consecutive pieces of a run share no key. -/
theorem disjointKeys {ls : List (List (κ × ν))} (h : SortedRun ls.flatten) : DisjointKeys ls := by
  induction ls with
  | nil => exact .nil
  | cons l ls ih =>
    obtain ⟨-, hls, hlt⟩ := append_iff.mp h
    refine List.pairwise_cons.mpr ⟨fun l' hl' k hk hk' => ?_, ih hls⟩
    obtain ⟨v, hv⟩ := mem_runKeys.mp hk
    obtain ⟨w, hw⟩ := mem_runKeys.mp hk'
    exact lt_irrefl _ (hlt (k, v) hv (k, w) (List.mem_flatten.mpr ⟨l', hl', hw⟩))

end SortedRun

/-! ## The two-way union -/

/-- Merge two runs; on equal keys the pair of the first run is kept. -/
def leftUnion : List (κ × ν) → List (κ × ν) → List (κ × ν)
  | [], r => r
  | a :: l, [] => a :: l
  | a :: l, b :: r =>
    if a.1 < b.1 then a :: leftUnion l (b :: r)
    else if b.1 < a.1 then b :: leftUnion (a :: l) r
    else a :: leftUnion l r
termination_by l r => l.length + r.length

@[simp] theorem leftUnion_nil_left (r : List (κ × ν)) : leftUnion [] r = r := by
  rw [leftUnion]

@[simp] theorem leftUnion_nil_right (l : List (κ × ν)) : leftUnion l [] = l := by
  cases l <;> simp [leftUnion]

theorem leftUnion_cons_of_lt {a b : κ × ν} {l r : List (κ × ν)} (h : a.1 < b.1) :
    leftUnion (a :: l) (b :: r) = a :: leftUnion l (b :: r) := by
  rw [leftUnion, if_pos h]

theorem leftUnion_cons_of_gt {a b : κ × ν} {l r : List (κ × ν)} (h : b.1 < a.1) :
    leftUnion (a :: l) (b :: r) = b :: leftUnion (a :: l) r := by
  rw [leftUnion, if_neg h.not_gt, if_pos h]

theorem leftUnion_cons_of_eq {a b : κ × ν} {l r : List (κ × ν)} (h : a.1 = b.1) :
    leftUnion (a :: l) (b :: r) = a :: leftUnion l r := by
  rw [leftUnion, if_neg h.not_lt, if_neg h.not_gt]

/-- A pair of the union comes from the left run, or from the right one at a key the left run
does not have. -/
theorem mem_leftUnion {l r : List (κ × ν)} (hl : SortedRun l) (hr : SortedRun r) {x : κ × ν} :
    x ∈ leftUnion l r ↔ x ∈ l ∨ x ∈ r ∧ x.1 ∉ runKeys l := by
  induction l, r using leftUnion.induct with
  | case1 r => simp
  | case2 a l => simp
  | case3 a l b r h ih =>
    rw [leftUnion_cons_of_lt h, List.mem_cons, ih hl.tail hr]
    simp only [List.mem_cons, runKeys_cons, not_or, or_assoc]
    rw [← List.mem_cons]
    refine or_congr Iff.rfl (or_congr Iff.rfl (and_congr_right fun hx => ?_))
    exact ⟨fun h' => ⟨(h.trans_le (hr.head_le hx)).ne', h'⟩, And.right⟩
  | case4 a l b r h h' ih =>
    have hb : b.1 ∉ runKeys (a :: l) := by
      intro hmem
      obtain ⟨v, hv⟩ := mem_runKeys.mp hmem
      exact absurd (h'.trans_le (hl.head_le hv)) (lt_irrefl _)
    rw [leftUnion_cons_of_gt h', List.mem_cons, ih hl hr.tail]
    simp only [@List.mem_cons _ b r x]
    constructor
    · rintro (rfl | hx | hx)
      · exact Or.inr ⟨Or.inl rfl, hb⟩
      · exact Or.inl hx
      · exact Or.inr ⟨Or.inr hx.1, hx.2⟩
    · rintro (hx | ⟨rfl | hx, hk⟩)
      · exact Or.inr (Or.inl hx)
      · exact Or.inl rfl
      · exact Or.inr (Or.inr ⟨hx, hk⟩)
  | case5 a l b r h h' ih =>
    have heq : a.1 = b.1 := le_antisymm (not_lt.mp h') (not_lt.mp h)
    rw [leftUnion_cons_of_eq heq, List.mem_cons, ih hl.tail hr.tail]
    simp only [List.mem_cons, runKeys_cons, not_or, or_assoc]
    refine or_congr Iff.rfl (or_congr Iff.rfl ?_)
    constructor
    · rintro ⟨hx, hk⟩
      exact ⟨Or.inr hx, by rw [heq]; exact (hr.head_lt hx).ne', hk⟩
    · rintro ⟨rfl | hx, hne, hk⟩
      · exact absurd heq.symm hne
      · exact ⟨hx, hk⟩

theorem mem_or_mem_of_mem_leftUnion {l r : List (κ × ν)} (hl : SortedRun l) (hr : SortedRun r)
    {x : κ × ν} (h : x ∈ leftUnion l r) : x ∈ l ∨ x ∈ r :=
  ((mem_leftUnion hl hr).mp h).imp_right And.left

theorem mem_runKeys_leftUnion {l r : List (κ × ν)} (hl : SortedRun l) (hr : SortedRun r) {k : κ} :
    k ∈ runKeys (leftUnion l r) ↔ k ∈ runKeys l ∨ k ∈ runKeys r := by
  simp only [mem_runKeys, mem_leftUnion hl hr]
  constructor
  · rintro ⟨v, h | h⟩
    · exact Or.inl ⟨v, h⟩
    · exact Or.inr ⟨v, h.1⟩
  · rintro (⟨v, h⟩ | ⟨v, h⟩)
    · exact ⟨v, Or.inl h⟩
    · by_cases hk : ∃ w, (k, w) ∈ l
      · exact hk.imp fun w hw => Or.inl hw
      · exact ⟨v, Or.inr ⟨h, hk⟩⟩

theorem SortedRun.leftUnion {l r : List (κ × ν)} (hl : SortedRun l) (hr : SortedRun r) :
    SortedRun (leftUnion l r) := by
  induction l, r using leftUnion.induct with
  | case1 r => simpa using hr
  | case2 a l => simpa using hl
  | case3 a l b r h ih =>
    rw [leftUnion_cons_of_lt h, SortedRun.cons_iff]
    refine ⟨fun x hx => ?_, ih hl.tail hr⟩
    rcases mem_or_mem_of_mem_leftUnion hl.tail hr hx with hx | hx
    · exact hl.head_lt hx
    · exact h.trans_le (hr.head_le hx)
  | case4 a l b r h h' ih =>
    rw [leftUnion_cons_of_gt h', SortedRun.cons_iff]
    refine ⟨fun x hx => ?_, ih hl hr.tail⟩
    rcases mem_or_mem_of_mem_leftUnion hl hr.tail hx with hx | hx
    · exact h'.trans_le (hl.head_le hx)
    · exact hr.head_lt hx
  | case5 a l b r h h' ih =>
    have heq : a.1 = b.1 := le_antisymm (not_lt.mp h') (not_lt.mp h)
    rw [leftUnion_cons_of_eq heq, SortedRun.cons_iff]
    refine ⟨fun x hx => ?_, ih hl.tail hr.tail⟩
    rcases mem_or_mem_of_mem_leftUnion hl.tail hr.tail hx with hx | hx
    · exact hl.head_lt hx
    · rw [heq]
      exact hr.head_lt hx

theorem length_leftUnion_le (l r : List (κ × ν)) :
    (leftUnion l r).length ≤ l.length + r.length := by
  induction l, r using leftUnion.induct with
  | case1 r => simp
  | case2 a l => simp
  | case3 a l b r h ih =>
    rw [leftUnion_cons_of_lt h, List.length_cons, List.length_cons]
    omega
  | case4 a l b r h h' ih =>
    rw [leftUnion_cons_of_gt h', List.length_cons]
    simp only [List.length_cons] at ih ⊢
    omega
  | case5 a l b r h h' ih =>
    rw [leftUnion_cons_of_eq (le_antisymm (not_lt.mp h') (not_lt.mp h)), List.length_cons,
      List.length_cons, List.length_cons]
    omega

theorem leftUnion_eq_nil {la lb : List (κ × ν)} (h : leftUnion la lb = []) :
    la = [] ∧ lb = [] := by
  rcases la with _ | ⟨z, la⟩ <;> rcases lb with _ | ⟨y, lb⟩
  · exact ⟨rfl, rfl⟩
  · simp at h
  · simp at h
  · rw [leftUnion] at h
    split at h
    · simp at h
    · split at h <;> simp at h

/-! ## The union of a list of runs -/

/-- The left-biased union of a list of runs: the first run that has a key decides. -/
def unionAll (ls : List (List (κ × ν))) : List (κ × ν) := ls.foldr leftUnion []

@[simp] theorem unionAll_nil : unionAll ([] : List (List (κ × ν))) = [] := rfl

@[simp] theorem unionAll_cons (l : List (κ × ν)) (ls : List (List (κ × ν))) :
    unionAll (l :: ls) = leftUnion l (unionAll ls) := rfl

theorem sortedRun_unionAll {ls : List (List (κ × ν))} (h : ∀ l ∈ ls, SortedRun l) :
    SortedRun (unionAll ls) := by
  induction ls with
  | nil => simp
  | cons l ls ih =>
    rw [unionAll_cons]
    exact (h l List.mem_cons_self).leftUnion (ih fun l' hl' => h l' (List.mem_cons_of_mem _ hl'))

/-- `out` is the left-biased union of the family `f`: at each key the run with the smallest
index that has the key decides. -/
structure IsUnionOf (f : ℕ → List (κ × ν)) (out : List (κ × ν)) : Prop where
  sorted : SortedRun out
  mem_iff : ∀ x, x ∈ out ↔ ∃ i, x ∈ f i ∧ ∀ j < i, x.1 ∉ runKeys (f j)

namespace IsUnionOf

variable {f : ℕ → List (κ × ν)} {out : List (κ × ν)}

theorem unique {out' : List (κ × ν)} (h : IsUnionOf f out) (h' : IsUnionOf f out') :
    out = out' :=
  h.sorted.eq_of_mem_iff h'.sorted fun x => (h.mem_iff x).trans (h'.mem_iff x).symm

theorem of_empty (h : ∀ i, f i = []) : IsUnionOf f [] where
  sorted := SortedRun.nil
  mem_iff x := by simp [h]

/-- A key of the union is a key of some member of the family. -/
theorem mem_runKeys_iff (h : IsUnionOf f out) {k : κ} :
    k ∈ runKeys out ↔ ∃ i, k ∈ runKeys (f i) := by
  constructor
  · intro hk
    obtain ⟨v, hv⟩ := mem_runKeys.mp hk
    obtain ⟨i, hi, -⟩ := (h.mem_iff _).mp hv
    exact ⟨i, mem_runKeys.mpr ⟨v, hi⟩⟩
  · intro hk
    classical
    obtain ⟨v, hv⟩ := mem_runKeys.mp (Nat.find_spec hk)
    exact mem_runKeys.mpr ⟨v, (h.mem_iff _).mpr ⟨Nat.find hk, hv, fun j hj => Nat.find_min hk hj⟩⟩

/-- **The step of a k-way merge.**  When the run at `i₀` starts with the smallest key of all,
and no run before it has that key, its head is the head of the union, and the rest is the
union of the runs with that key removed. -/
theorem head (h : IsUnionOf f out) {i₀ : ℕ} {k : κ} {v : ν} {l : List (κ × ν)}
    (hi₀ : f i₀ = (k, v) :: l)
    (hle : ∀ i, ∀ x ∈ f i, k ≤ x.1) (hfirst : ∀ j < i₀, k ∉ runKeys (f j)) :
    ∃ out', out = (k, v) :: out' ∧ IsUnionOf (fun i => (f i).filter fun a => a.1 ≠ k) out' := by
  have hmem : (k, v) ∈ out := (h.mem_iff _).mpr ⟨i₀, by rw [hi₀]; exact List.mem_cons_self, hfirst⟩
  have hle' : ∀ x ∈ out, k ≤ x.1 := by
    intro x hx
    obtain ⟨i, hi, -⟩ := (h.mem_iff x).mp hx
    exact hle i x hi
  -- the head of the union has key `k`, hence is the pair of `f i₀`
  rcases hout : out with _ | ⟨a, out'⟩
  · rw [hout] at hmem
    simp at hmem
  have ha : a = (k, v) := by
    rw [hout] at hmem
    rcases List.mem_cons.mp hmem with ha | hk
    · exact ha.symm
    · have hlt := (hout ▸ h.sorted).head_lt hk
      exact absurd (hle' a (by rw [hout]; exact List.mem_cons_self)) (not_le.mpr hlt)
  subst ha
  have hsorted : SortedRun ((k, v) :: out') := hout ▸ h.sorted
  refine ⟨out', rfl, hsorted.tail, fun x => ?_⟩
  have hkeys : ∀ j, x.1 ≠ k →
      (x.1 ∉ runKeys ((f j).filter fun a => a.1 ≠ k) ↔ x.1 ∉ runKeys (f j)) := by
    intro j hne
    simp [mem_runKeys, hne]
  constructor
  · intro hx
    have hne : x.1 ≠ k := (hsorted.head_lt hx).ne'
    obtain ⟨i, hi, hj⟩ := (h.mem_iff x).mp (by rw [hout]; exact List.mem_cons_of_mem _ hx)
    exact ⟨i, by simp [hi, hne], fun j hji => (hkeys j hne).mpr (hj j hji)⟩
  · rintro ⟨i, hi, hj⟩
    have hne : x.1 ≠ k := by simpa using (List.mem_filter.mp hi).2
    have hx : x ∈ out := (h.mem_iff x).mpr
      ⟨i, List.mem_of_mem_filter hi, fun j hji => (hkeys j hne).mp (hj j hji)⟩
    rw [hout] at hx
    rcases List.mem_cons.mp hx with rfl | hx
    · exact absurd rfl hne
    · exact hx

end IsUnionOf

/-- The fold is the union of the list, read as a family. -/
theorem isUnionOf_unionAll {ls : List (List (κ × ν))} (h : ∀ l ∈ ls, SortedRun l) :
    IsUnionOf (fun i => ls.getD i []) (unionAll ls) := by
  induction ls with
  | nil => exact IsUnionOf.of_empty fun i => by simp
  | cons l ls ih =>
    have hl := h l List.mem_cons_self
    have hls : ∀ l' ∈ ls, SortedRun l' := fun l' hl' => h l' (List.mem_cons_of_mem _ hl')
    refine ⟨sortedRun_unionAll h, fun x => ?_⟩
    rw [unionAll_cons, mem_leftUnion hl (sortedRun_unionAll hls), (ih hls).mem_iff]
    constructor
    · rintro (hx | ⟨⟨i, hi, hj⟩, hk⟩)
      · exact ⟨0, hx, fun j hj => absurd hj (Nat.not_lt_zero j)⟩
      · refine ⟨i + 1, hi, fun j hji => ?_⟩
        rcases j with _ | j
        · exact hk
        · exact hj j (Nat.lt_of_succ_lt_succ hji)
    · rintro ⟨i, hi, hj⟩
      rcases i with _ | i
      · exact Or.inl hi
      · exact Or.inr ⟨⟨i, hi, fun j hji => hj (j + 1) (Nat.succ_lt_succ hji)⟩,
          hj 0 (Nat.succ_pos i)⟩

theorem mem_runKeys_unionAll {ls : List (List (κ × ν))} (h : ∀ l ∈ ls, SortedRun l) {k : κ} :
    k ∈ runKeys (unionAll ls) ↔ ∃ l ∈ ls, k ∈ runKeys l := by
  rw [(isUnionOf_unionAll h).mem_runKeys_iff]
  constructor
  · rintro ⟨i, hi⟩
    have hlt : i < ls.length := by
      by_contra hge
      rw [List.getD_eq_default _ _ (not_lt.mp hge)] at hi
      simp at hi
    exact ⟨ls[i], List.getElem_mem hlt, by rwa [List.getD_eq_getElem _ _ hlt] at hi⟩
  · rintro ⟨l, hl, hk⟩
    obtain ⟨i, hi, rfl⟩ := List.getElem_of_mem hl
    exact ⟨i, by rwa [List.getD_eq_getElem _ _ hi]⟩

/-- **The union of a list of runs holds what the earliest runs have.** -/
theorem mem_unionAll {ls : List (List (κ × ν))} (h : ∀ l ∈ ls, SortedRun l) {x : κ × ν} :
    x ∈ unionAll ls ↔ EarliestIn ls x := by
  induction ls with
  | nil => simp [EarliestIn]
  | cons l ls ih =>
    have hls : ∀ l' ∈ ls, SortedRun l' := fun l' hl' => h l' (List.mem_cons_of_mem _ hl')
    rw [unionAll_cons, mem_leftUnion (h l List.mem_cons_self) (sortedRun_unionAll hls), ih hls,
      EarliestIn, and_comm]

/-- When no two runs share a key, the union holds the pairs of all the runs. -/
theorem mem_unionAll_of_disjoint {ls : List (List (κ × ν))} (h : ∀ l ∈ ls, SortedRun l)
    (hd : DisjointKeys ls) {x : κ × ν} : x ∈ unionAll ls ↔ ∃ l ∈ ls, x ∈ l := by
  rw [mem_unionAll h, hd.earliestIn_iff]

/-- The earliest run decides one pair for each key. -/
theorem EarliestIn.inj {ls : List (List (κ × ν))} (hs : ∀ l ∈ ls, SortedRun l) {k : κ} {v w : ν}
    (hv : EarliestIn ls (k, v)) (hw : EarliestIn ls (k, w)) : v = w :=
  (sortedRun_unionAll hs).inj ((mem_unionAll hs).mpr hv) ((mem_unionAll hs).mpr hw)

theorem leftUnion_assoc {a b c : List (κ × ν)} (ha : SortedRun a) (hb : SortedRun b)
    (hc : SortedRun c) : leftUnion (leftUnion a b) c = leftUnion a (leftUnion b c) := by
  refine ((ha.leftUnion hb).leftUnion hc).eq_of_mem_iff (ha.leftUnion (hb.leftUnion hc))
    fun x => ?_
  rw [mem_leftUnion (ha.leftUnion hb) hc, mem_leftUnion ha hb, mem_leftUnion ha (hb.leftUnion hc),
    mem_leftUnion hb hc, mem_runKeys_leftUnion ha hb]
  by_cases hk : x.1 ∈ runKeys a
  · simp [hk]
  · simp [hk, or_assoc]

theorem unionAll_append {ls ls' : List (List (κ × ν))} (h : ∀ l ∈ ls, SortedRun l)
    (h' : ∀ l ∈ ls', SortedRun l) :
    unionAll (ls ++ ls') = leftUnion (unionAll ls) (unionAll ls') := by
  induction ls with
  | nil => simp
  | cons l ls ih =>
    have hls : ∀ l' ∈ ls, SortedRun l' := fun l' hl' => h l' (List.mem_cons_of_mem _ hl')
    rw [List.cons_append, unionAll_cons, unionAll_cons, ih hls,
      leftUnion_assoc (h l List.mem_cons_self) (sortedRun_unionAll hls) (sortedRun_unionAll h')]
