import TinyLsm.Iterators.SkipLoop
import TinyLsm.Iterators.MockIterator

/-!
# The merges of the read path are left-biased unions

Children that never fail follow the lists of their entries, so the merges over them follow the
merges over these lists, and what those hand out is known from `MergeIterator.create_yields` and
`TwoMergeIterator.create_yields`.
-/

namespace TinyLsm

open StorageIterator

section

variable {I : Type} [StorageIterator I Key] {iters : List I} {ls : List (List Entry)}

namespace MergeIterator

theorem ordered_of_upto (h : List.Forall₂ Upto iters ls) (hs : ∀ l ∈ ls, SortedRun l) :
    ∀ it ∈ iters, Ordered it := by
  intro it hit
  induction h with
  | nil => cases hit
  | @cons it' l _ _ hl _ ih =>
    rcases List.mem_cons.mp hit with rfl | hit
    · exact ⟨l, hs l List.mem_cons_self, hl⟩
    · exact ih (fun l hl => hs l (List.mem_cons_of_mem _ hl)) hit

theorem ordered_lists (hs : ∀ l ∈ ls, SortedRun l) : ∀ it ∈ ls.map ListIterator.mk, Ordered it := by
  intro it hit
  obtain ⟨l, hl, rfl⟩ := List.mem_map.mp hit
  exact ⟨l, hs l hl, (ListIterator.yields l).visits.upto⟩

theorem lists_yield (hs : ∀ l ∈ ls, SortedRun l) :
    Yields Drained (create (ls.map ListIterator.mk)) (unionAll ls) := by
  refine create_yields (P := Drained) ?_ hs
  rw [List.forall₂_map_left_iff, List.forall₂_same]
  exact fun l _ => ListIterator.yields l

/-- The merge of the lists is followed by the merge of the children. -/
theorem like_lists (h : List.Forall₂ Visits iters ls) (hs : ∀ l ∈ ls, SortedRun l) :
    Like (fun (b : ListIterator) (it : I) => Visits it b.entries) (create (ls.map ListIterator.mk))
      (create iters) ∧ (create (ls.map ListIterator.mk)).Stands ∧ (create iters).Stands := by
  refine ⟨create_like ListIterator.follows_visits ?_, create_stands (ordered_lists hs),
    create_stands (ordered_of_upto (h.imp fun _ _ hv => hv.upto) hs)⟩
  rw [List.forall₂_map_left_iff]
  exact h.flip

theorem create_visits (h : List.Forall₂ Visits iters ls) (hs : ∀ l ∈ ls, SortedRun l) :
    Visits (create iters) (unionAll ls) :=
  (follows_merge ListIterator.follows_visits).visits (lists_yield hs).visits (like_lists h hs)

/-- **The merge is the sorted union, and the child passed in first wins.** -/
theorem create_sortedUnion (h : List.Forall₂ Visits iters ls) (hs : ∀ l ∈ ls, SortedRun l) :
    ∃ out, Visits (create iters) out ∧ SortedRun out ∧
      (∀ k, k ∈ runKeys out ↔ ∃ l ∈ ls, k ∈ runKeys l) ∧
      ∀ k v, (k, v) ∈ out ↔ ∃ (i : ℕ) (hi : i < ls.length), (k, v) ∈ ls[i] ∧
        ∀ (j : ℕ) (hj : j < ls.length), j < i → k ∉ runKeys ls[j] := by
  refine ⟨unionAll ls, create_visits h hs, sortedRun_unionAll hs, fun k => mem_runKeys_unionAll hs,
    fun k v => ?_⟩
  rw [(isUnionOf_unionAll hs).mem_iff]
  constructor
  · rintro ⟨i, hi, hfirst⟩
    have hlt : i < ls.length := by
      by_contra hge
      rw [List.getD_eq_default _ _ (not_lt.mp hge)] at hi
      cases hi
    rw [List.getD_eq_getElem _ _ hlt] at hi
    refine ⟨i, hlt, hi, fun j hjlt hj => ?_⟩
    have hj' := hfirst j hj
    rwa [List.getD_eq_getElem _ _ hjlt] at hj'
  · rintro ⟨i, hlt, hi, hfirst⟩
    refine ⟨i, by rwa [List.getD_eq_getElem _ _ hlt], fun j hj => ?_⟩
    rw [List.getD_eq_getElem _ _ (hj.trans hlt)]
    exact hfirst j (hj.trans hlt) hj

/-- Two children that share a key: the value of the first is handed out. -/
theorem create_sortedUnion_mock :
    ∃ out, Visits (create [MockIterator.new [([1], [10]), ([2], [20])], MockIterator.new [([2], [21])]]) out ∧
      SortedRun out ∧
      (∀ k, k ∈ runKeys out ↔ ∃ l ∈ [[((⟨[1], tsDefault⟩ : Key), ([10] : Bytes)), (⟨[2], tsDefault⟩, [20])],
        [(⟨[2], tsDefault⟩, [21])]], k ∈ runKeys l) ∧
      ((⟨[2], tsDefault⟩ : Key), ([21] : Bytes)) ∉ out := by
  have h₀ : Visits (MockIterator.new [([1], [10]), ([2], [20])]) _ := MockIterator.visits rfl
  have h₁ : Visits (MockIterator.new [([2], [21])]) _ := MockIterator.visits rfl
  obtain ⟨out, hvisits, hsorted, hkeys, hfirst⟩ :=
    create_sortedUnion (.cons h₀ (.cons h₁ .nil)) (by decide)
  refine ⟨out, hvisits, hsorted, hkeys, fun hmem => ?_⟩
  obtain ⟨i, hi, hmem, hnot⟩ := (hfirst _ _).mp hmem
  rcases i with _ | _ | i
  · rw [List.getElem_cons_zero] at hmem
    exact absurd hmem (by decide)
  · have hfirst₀ := hnot 0 (by decide) Nat.zero_lt_one
    rw [List.getElem_cons_zero] at hfirst₀
    exact hfirst₀ (by decide)
  · simp at hi

end MergeIterator

/-- **The nested merge of the read path is one flat merge.** -/
theorem TwoMergeIterator.nested_eq_flat {xs ys zs : List I} {lx ly lz : List (List Entry)}
    (hx : List.Forall₂ Visits xs lx) (hy : List.Forall₂ Visits ys ly) (hz : List.Forall₂ Visits zs lz)
    (hsx : ∀ l ∈ lx, SortedRun l) (hsy : ∀ l ∈ ly, SortedRun l) (hsz : ∀ l ∈ lz, SortedRun l) :
    ∃ out, Visits (create (create (MergeIterator.create xs) (MergeIterator.create ys))
        (MergeIterator.create zs)) out ∧
      Visits (MergeIterator.create (xs ++ ys ++ zs)) out := by
  have hsxy : ∀ l ∈ lx ++ ly, SortedRun l := fun l hl => (List.mem_append.mp hl).elim (hsx l) (hsy l)
  have hs : ∀ l ∈ lx ++ ly ++ lz, SortedRun l := fun l hl =>
    (List.mem_append.mp hl).elim (hsxy l) (hsz l)
  refine ⟨unionAll (lx ++ ly ++ lz), ?_, MergeIterator.create_visits
    (List.rel_append (List.rel_append hx hy) hz) hs⟩
  -- the same merges over the lists
  have hlists := create_yields_drained (create_yields_drained (MergeIterator.lists_yield hsx)
    (MergeIterator.lists_yield hsy) (sortedRun_unionAll hsx) (sortedRun_unionAll hsy))
    (MergeIterator.lists_yield hsz) ((sortedRun_unionAll hsx).leftUnion (sortedRun_unionAll hsy))
    (sortedRun_unionAll hsz)
  rw [← unionAll_append hsx hsy, ← unionAll_append hsxy hsz] at hlists
  have hmerge := MergeIterator.follows_merge (ListIterator.follows_visits (I := I))
  exact (follows_merge (follows_merge hmerge hmerge) hmerge).visits hlists.visits
    ⟨⟨MergeIterator.like_lists hx hsx, MergeIterator.like_lists hy hsy⟩, MergeIterator.like_lists hz hsz⟩

/-- A key in all three groups. -/
theorem TwoMergeIterator.nested_eq_flat_mock :
    ∃ out, Visits (create (create (MergeIterator.create [MockIterator.new [([1], [10])]])
        (MergeIterator.create [MockIterator.new [([1], [11]), ([2], [21])], MockIterator.new []]))
        (MergeIterator.create [MockIterator.new [([1], [12]), ([2], [22]), ([3], [32])]])) out ∧
      Visits (MergeIterator.create ([MockIterator.new [([1], [10])]] ++
        [MockIterator.new [([1], [11]), ([2], [21])], MockIterator.new []] ++
        [MockIterator.new [([1], [12]), ([2], [22]), ([3], [32])]])) out :=
  nested_eq_flat (.cons (MockIterator.visits rfl) .nil)
    (.cons (MockIterator.visits rfl) (.cons (MockIterator.visits rfl) .nil))
    (.cons (MockIterator.visits rfl) .nil) (by decide) (by decide) (by decide)

end

end TinyLsm
