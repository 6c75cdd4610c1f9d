import TinyLsm.Iterators.StorageIterator

/-!
# Iterators that fail, and iterators that follow each other

`Upto it l` describes a child that may fail: it hands out `l` from the front, and on the way a call
of `next` may return `Err`, after which nothing is said of it.  `Handed` and `Advanced` collect the
calls that return `Ok`.

`Follows R` says that `b` does whatever `a` does as long as `a` does not fail, and `Alike R` that
it fails with it.  Neither looks at `remaining`, so a child follows the plain list of its entries
(`ListIterator`), whose bound is honest, whatever bound the child itself reports.
-/

namespace TinyLsm

open StorageIterator

namespace StorageIterator

section

variable {I κ : Type} [StorageIterator I κ]

/-- The entry shown, if there is one. -/
def shown (it : I) : List (κ × Bytes) := if isValid it then [(key it, value it)] else []

/-- The entries that the calls from one state to another hand out, all of which return `Ok`. -/
inductive Handed : I → List (κ × Bytes) → I → Prop where
  | nil (it : I) : Handed it [] it
  | cons {it it₁ it₂ : I} {l : List (κ × Bytes)} (hvalid : isValid it = true)
      (hnext : next it = (.ok (), it₁)) (htail : Handed it₁ l it₂) :
      Handed it ((key it, value it) :: l) it₂

/-- Reached by calls of `next` on valid states, all of which return `Ok`. -/
inductive Advanced : I → I → Prop where
  | refl (it : I) : Advanced it it
  | head {it it₁ it₂ : I} (hvalid : isValid it = true) (hnext : next it = (.ok (), it₁))
      (htail : Advanced it₁ it₂) : Advanced it it₂

theorem Advanced.single {it it' : I} (hvalid : isValid it = true) (hnext : next it = (.ok (), it')) :
    Advanced it it' := .head hvalid hnext (.refl it')

theorem Advanced.trans {it it₁ it₂ : I} (h : Advanced it it₁) (h' : Advanced it₁ it₂) :
    Advanced it it₂ := by
  induction h with
  | refl => exact h'
  | head hvalid hnext _ ih => exact .head hvalid hnext (ih h')

/-- Some call of `next` on the way returns `e`, and all before it `Ok`. -/
def FailsWith (e : Fault) (it : I) : Prop :=
  ∃ it', Advanced it it' ∧ isValid it' = true ∧ (next it').1 = .error e

theorem FailsWith.of_advanced {e : Fault} {it it' : I} (h : Advanced it it') (h' : FailsWith e it') :
    FailsWith e it := by
  obtain ⟨it'', hadv, hfail⟩ := h'
  exact ⟨it'', h.trans hadv, hfail⟩

/-- The iterator hands out `l`, unless a call of `next` fails before. -/
inductive Upto : I → List (κ × Bytes) → Prop where
  | nil {it : I} (hvalid : isValid it = false) : Upto it []
  | fail {it : I} {e : Fault} (hvalid : isValid it = true) (hnext : (next it).1 = .error e)
      (l : List (κ × Bytes)) : Upto it ((key it, value it) :: l)
  | cons {it it' : I} {l : List (κ × Bytes)} (hvalid : isValid it = true)
      (hnext : next it = (.ok (), it')) (htail : Upto it' l) : Upto it ((key it, value it) :: l)

theorem Visits.upto {it : I} {l : List (κ × Bytes)} (h : Visits it l) : Upto it l := by
  induction h with
  | nil hvalid => exact .nil hvalid
  | cons hvalid hnext _ ih => exact .cons hvalid hnext ih

/-- An iterator whose entries are all visited never fails. -/
theorem Visits.not_failsWith {it : I} {l : List (κ × Bytes)} (h : Visits it l) (e : Fault) :
    ¬ FailsWith e it := by
  rintro ⟨it', hadv, hvalid', hfail⟩
  induction hadv generalizing l with
  | refl it =>
    cases h with
    | nil hvalid =>
      rw [hvalid'] at hvalid
      cases hvalid
    | cons _ hnext _ =>
      rw [hnext] at hfail
      cases hfail
  | head hvalid hnext _ ih =>
    cases h with
    | nil hvalid₀ =>
      rw [hvalid] at hvalid₀
      cases hvalid₀
    | cons _ hnext₀ htail =>
      rw [hnext] at hnext₀
      cases hnext₀
      exact ih htail hvalid' hfail

namespace Upto

variable {it : I} {l : List (κ × Bytes)}

theorem isValid_iff (h : Upto it l) : isValid it = true ↔ l ≠ [] := by
  cases h with
  | nil hvalid => simp [hvalid]
  | fail hvalid _ _ => simp [hvalid]
  | cons hvalid _ _ => simp [hvalid]

/-- A valid iterator shows the head of its entries. -/
theorem head (h : Upto it l) (hvalid : isValid it = true) :
    ∃ l', l = (key it, value it) :: l' ∧ ∀ it', next it = (.ok (), it') → Upto it' l' := by
  cases h with
  | nil hvalid' =>
    rw [hvalid] at hvalid'
    cases hvalid'
  | fail _ hnext l' =>
    refine ⟨l', rfl, fun it' hok => ?_⟩
    rw [hok] at hnext
    cases hnext
  | @cons _ it₁ l' _ hnext htail =>
    refine ⟨l', rfl, fun it' hok => ?_⟩
    rw [hnext] at hok
    cases hok
    exact htail

end Upto

/-- An iterator that never fails hands out everything. -/
theorem Upto.visits {it : I} {l : List (κ × Bytes)} (h : Upto it l) (hok : ∀ e, ¬ FailsWith e it) :
    Visits it l := by
  induction h with
  | nil hvalid => exact .nil hvalid
  | @fail it e hvalid hnext l => exact absurd ⟨it, .refl it, hvalid, hnext⟩ (hok e)
  | cons hvalid hnext _ ih =>
    exact .cons hvalid hnext (ih fun e he => hok e (he.of_advanced (.single hvalid hnext)))

/-- Its entries, as far as it hands them out, are a sorted run. -/
def Ordered [LinearOrder κ] (it : I) : Prop := ∃ l : List (κ × Bytes), SortedRun l ∧ Upto it l

namespace Ordered

variable [LinearOrder κ] {it it' : I}

theorem next (h : Ordered it) (hvalid : isValid it = true)
    (hnext : StorageIterator.next it = (.ok (), it')) :
    Ordered it' ∧ (isValid it' = true → key it < key it') := by
  obtain ⟨l, hs, hl⟩ := h
  obtain ⟨l', rfl, hl'⟩ := hl.head hvalid
  refine ⟨⟨l', hs.tail, hl' it' hnext⟩, fun hvalid' => ?_⟩
  obtain ⟨l'', rfl, -⟩ := (hl' it' hnext).head hvalid'
  exact hs.head_lt List.mem_cons_self

end Ordered

end

/-! ## Following -/

section

variable {I J κ : Type} [StorageIterator I κ] [StorageIterator J κ]

/-- `b` shows what `a` shows, and takes every step that `a` takes without failing. -/
structure Follows (R : I → J → Prop) : Prop where
  isValid : ∀ {a b}, R a b → isValid a = isValid b
  key : ∀ {a b}, R a b → StorageIterator.isValid a = true → key a = key b
  value : ∀ {a b}, R a b → StorageIterator.isValid a = true → value a = value b
  next : ∀ {a b}, R a b → StorageIterator.isValid a = true →
    ∀ {a'}, next a = (.ok (), a') → ∃ b', next b = (.ok (), b') ∧ R a' b'

/-- `b` also fails when `a` fails.  Nothing relates the two after that. -/
structure Alike (R : I → J → Prop) : Prop extends Follows R where
  error : ∀ {a b}, R a b → StorageIterator.isValid a = true →
    ∀ {e}, (StorageIterator.next a).1 = .error e → (StorageIterator.next b).1 = .error e

theorem Follows.visits {R : I → J → Prop} (hR : Follows R) {a : I} {l : List (κ × Bytes)}
    (h : Visits a l) {b : J} (hab : R a b) : Visits b l := by
  induction h generalizing b with
  | nil hvalid => exact .nil (by rw [← hR.isValid hab, hvalid])
  | cons hvalid hnext _ ih =>
    obtain ⟨b', hnext', hab'⟩ := hR.next hab hvalid hnext
    rw [hR.key hab hvalid, hR.value hab hvalid]
    exact .cons (by rw [← hR.isValid hab, hvalid]) hnext' (ih hab')

theorem Follows.handed {R : I → J → Prop} (hR : Follows R) {a a' : I} {l : List (κ × Bytes)}
    (h : Handed a l a') {b : J} (hab : R a b) : ∃ b', Handed b l b' ∧ R a' b' := by
  induction h generalizing b with
  | nil => exact ⟨b, .nil b, hab⟩
  | cons hvalid hnext _ ih =>
    obtain ⟨b₁, hnext', hab₁⟩ := hR.next hab hvalid hnext
    obtain ⟨b', hb', hab'⟩ := ih hab₁
    rw [hR.key hab hvalid, hR.value hab hvalid]
    exact ⟨b', .cons (by rw [← hR.isValid hab, hvalid]) hnext' hb', hab'⟩

theorem Follows.shown {R : I → J → Prop} (hR : Follows R) {a : I} {b : J} (hab : R a b) :
    shown a = shown b := by
  unfold StorageIterator.shown
  rw [← hR.isValid hab]
  split
  · rename_i hvalid
    rw [hR.key hab hvalid, hR.value hab hvalid]
  · rfl

theorem Alike.upto {R : I → J → Prop} (hR : Alike R) {a : I} {l : List (κ × Bytes)} (h : Upto a l)
    {b : J} (hab : R a b) : Upto b l := by
  induction h generalizing b with
  | nil hvalid => exact .nil (by rw [← hR.isValid hab, hvalid])
  | fail hvalid hnext l =>
    rw [hR.key hab hvalid, hR.value hab hvalid]
    exact .fail (by rw [← hR.isValid hab, hvalid]) (hR.error hab hvalid hnext) l
  | cons hvalid hnext _ ih =>
    obtain ⟨b', hnext', hab'⟩ := hR.next hab hvalid hnext
    rw [hR.key hab hvalid, hR.value hab hvalid]
    exact .cons (by rw [← hR.isValid hab, hvalid]) hnext' (ih hab')

/-- What is handed out is what a visit sees first. -/
theorem Visits.handed {it it' : I} {l out : List (κ × Bytes)} (h : Visits it l)
    (hout : Handed it out it') : ∃ rest, l = out ++ rest ∧ Visits it' rest := by
  induction hout generalizing l with
  | nil => exact ⟨l, rfl, h⟩
  | cons hvalid hnext _ ih =>
    cases h with
    | nil hvalid' =>
      rw [hvalid] at hvalid'
      cases hvalid'
    | cons _ hnext' htail =>
      rw [hnext] at hnext'
      cases hnext'
      obtain ⟨rest, rfl, hrest⟩ := ih htail
      exact ⟨rest, rfl, hrest⟩

theorem Visits.shown_append {it : I} {l : List (κ × Bytes)} (h : Visits it l) :
    shown it <+: l ∧ (isValid it = false → l = []) := by
  unfold shown
  cases h with
  | nil hvalid => simp [hvalid]
  | cons hvalid _ _ => simp [hvalid]

end

end StorageIterator

/-! ## The list as an iterator -/

/-- The entries still to come, and nothing else. -/
structure ListIterator where
  entries : List Entry

namespace ListIterator

instance : StorageIterator ListIterator Key where
  value it := (it.entries.headD (Key.new, [])).2
  key it := (it.entries.headD (Key.new, [])).1
  isValid it := !it.entries.isEmpty
  next it := (.ok (), ⟨it.entries.tail⟩)
  remaining it := it.entries.length

theorem yields (l : List Entry) : Yields Drained (ListIterator.mk l) l := by
  refine Yields.of_sim (fun it l => it = ⟨l⟩) ?_ ?_ rfl
  · rintro _ rfl
    refine ⟨rfl, Drained.of_invariant (fun it => it = ⟨[]⟩) ?_ ?_ rfl⟩
    · rintro _ rfl
      rfl
    · rintro _ rfl
      exact ⟨⟨[]⟩, rfl, rfl⟩
  · rintro _ a l rfl
    exact ⟨rfl, rfl, rfl, Nat.lt_succ_self _, ⟨l⟩, rfl, rfl⟩

/-- The list of its entries follows a child that may fail. -/
theorem follows_upto {I : Type} [StorageIterator I Key] :
    Follows fun (it : I) (b : ListIterator) => Upto it b.entries where
  isValid {it b} h := by
    rw [Bool.eq_iff_iff, h.isValid_iff]
    show _ ↔ (!b.entries.isEmpty) = true
    simp
  key {it b} h hvalid := by
    obtain ⟨l, hl, -⟩ := h.head hvalid
    show _ = (b.entries.headD (Key.new, [])).1
    rw [hl]
    rfl
  value {it b} h hvalid := by
    obtain ⟨l, hl, -⟩ := h.head hvalid
    show _ = (b.entries.headD (Key.new, [])).2
    rw [hl]
    rfl
  next {it b} h hvalid it' hnext := by
    obtain ⟨l, hl, htail⟩ := h.head hvalid
    refine ⟨⟨b.entries.tail⟩, rfl, ?_⟩
    rw [hl]
    exact htail it' hnext

/-- A child that never fails follows the list of its entries. -/
theorem follows_visits {I : Type} [StorageIterator I Key] :
    Follows fun (b : ListIterator) (it : I) => Visits it b.entries where
  isValid {b it} h := (follows_upto.isValid h.upto).symm
  key {b it} h hvalid := by
    rw [← follows_upto.isValid h.upto] at hvalid
    exact (follows_upto.key h.upto hvalid).symm
  value {b it} h hvalid := by
    rw [← follows_upto.isValid h.upto] at hvalid
    exact (follows_upto.value h.upto hvalid).symm
  next {b it} h hvalid b' hnext := by
    obtain ⟨l⟩ := b
    cases h with
    | nil _ => cases hvalid
    | @cons _ it' l _ hnext' htail =>
      cases hnext
      exact ⟨it', hnext', htail⟩

end ListIterator

end TinyLsm
