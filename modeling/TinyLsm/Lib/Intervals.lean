import Mathlib

/-!
# Lists of disjoint intervals

Things with a first and a last point of a linear order, read as closed intervals.

`Ascending l`: the members of `l` are proper and each ends before the next begins.

`Ascending.apart_of_outside` is about cutting an ascending list by a window: a member that misses the
window misses the whole hull of the window and the members that meet it.
-/

namespace TinyLsm.Intervals

variable {α β : Type*} [LinearOrder α] {first last : β → α} {l l' : List β} {a b : β}

/-- Proper intervals, each of which ends before the next begins. -/
def Ascending (first last : β → α) (l : List β) : Prop :=
  (∀ a ∈ l, first a ≤ last a) ∧ l.IsChain fun a b => last a < first b

/-- One of the two ends before the other begins. -/
def Apart (first last : β → α) (a b : β) : Prop := last a < first b ∨ last b < first a

/-- `a` lies between the least first point and the greatest last point of `l`. -/
def InHull (first last : β → α) (l : List β) (a : β) : Prop :=
  (∃ b ∈ l, first b ≤ first a) ∧ ∃ b ∈ l, last a ≤ last b

theorem Apart.symm (h : Apart first last a b) : Apart first last b a := Or.symm h

/-- Of two intervals that are apart, the one that begins first ends first. -/
theorem Apart.lt_of_le (h : Apart first last a b) (hab : first a ≤ first b)
    (hb : first b ≤ last b) : last a < first b := by
  rcases h with h | h
  · exact h
  · exact absurd (hab.trans hb) (not_le_of_gt h)

/-- In an ascending list every member ends before every later one begins. -/
theorem Ascending.pairwise (h : Ascending first last l) :
    l.Pairwise fun a b => last a < first b := by
  obtain ⟨hle, hchain⟩ := h
  have htrans : l.IsChain fun a b => last a < first b ∧ first b ≤ last b :=
    hchain.imp_of_mem_imp fun a b _ hb hab => ⟨hab, hle b hb⟩
  have : IsTrans β fun a b => last a < first b ∧ first b ≤ last b :=
    ⟨fun a b c hab hbc => ⟨(hab.1.trans_le hab.2).trans hbc.1, hbc.2⟩⟩
  exact (List.isChain_iff_pairwise.mp htrans).imp fun hab => hab.1

theorem Ascending.of_pairwise (hle : ∀ a ∈ l, first a ≤ last a)
    (h : l.Pairwise fun a b => last a < first b) : Ascending first last l :=
  ⟨hle, h.isChain⟩

theorem Ascending.sublist (h : Ascending first last l) (hs : l'.Sublist l) :
    Ascending first last l' :=
  .of_pairwise (fun a ha => h.1 a (hs.subset ha)) (h.pairwise.sublist hs)

/-- Two members are apart or the same. -/
theorem Ascending.apart (h : Ascending first last l) (ha : a ∈ l) (hb : b ∈ l) (hne : a ≠ b) :
    Apart first last a b := by
  have hpair : l.Pairwise (Apart first last) := h.pairwise.imp Or.inl
  have : Std.Symm (Apart first last) := ⟨fun _ _ => Apart.symm⟩
  exact hpair.forall ha hb hne

/-- **What a window leaves out.** A member that misses the window from `lo` to `hi` is apart from
everything in the hull of the intervals in the window and the members that meet it. -/
theorem Ascending.apart_of_outside (h : Ascending first last l) {lo hi : α} {inputs : List β}
    (hinputs : ∀ u ∈ inputs,
      lo ≤ first u ∧ last u ≤ hi ∨ u ∈ l ∧ ¬ (last u < lo ∨ hi < first u))
    (ha : a ∈ l) (hout : last a < lo ∨ hi < first a) (hb : InHull first last inputs b) :
    Apart first last a b := by
  obtain ⟨⟨u, hu, hub⟩, v, hv, hbv⟩ := hb
  have hne : ∀ {u}, ¬ (last u < lo ∨ hi < first u) → a ≠ u := by
    rintro u hmeets rfl
    exact hmeets hout
  rcases hout with hout | hout
  · -- `a` ends before the window begins, so it ends before `u` begins.
    left
    rcases hinputs u hu with ⟨hlo, -⟩ | ⟨hul, hmeets⟩
    · exact hout.trans_le (hlo.trans hub)
    · rcases h.apart ha hul (hne hmeets) with hau | hua
      · exact hau.trans_le hub
      · exact absurd (Or.inl ((hua.trans_le (h.1 a ha)).trans hout)) hmeets
  · right
    rcases hinputs v hv with ⟨-, hhi⟩ | ⟨hvl, hmeets⟩
    · exact (hbv.trans hhi).trans_lt hout
    · rcases h.apart ha hvl (hne hmeets) with hav | hva
      · exact absurd (Or.inr ((hout.trans_le (h.1 a ha)).trans hav)) hmeets
      · exact hbv.trans_lt hva

end TinyLsm.Intervals
