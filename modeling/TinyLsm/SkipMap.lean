import TinyLsm.Key
import TinyLsm.Lib.SortedRun

/-!
# Sorted maps

`crossbeam_skiplist::SkipMap<_, Bytes>` as a memtable and a transaction use it: a map sorted by key,
with insertion that overwrites and with range queries.  The sortedness is a field of the structure.
-/

namespace TinyLsm

/-- `std::ops::Bound`. -/
inductive Bound (α : Type) where
  | included (a : α)
  | excluded (a : α)
  | unbounded
  deriving DecidableEq, Repr

namespace Bound

variable {α : Type} [LinearOrder α]

/-- `a` satisfies the lower bound. -/
def AboveLower : Bound α → α → Prop
  | included b, a => b ≤ a
  | excluded b, a => b < a
  | unbounded, _ => True

/-- `a` satisfies the upper bound. -/
def BelowUpper : Bound α → α → Prop
  | included b, a => a ≤ b
  | excluded b, a => a < b
  | unbounded, _ => True

instance (b : Bound α) (a : α) : Decidable (b.AboveLower a) := by
  cases b <;> unfold AboveLower <;> infer_instance

instance (b : Bound α) (a : α) : Decidable (b.BelowUpper a) := by
  cases b <;> unfold BelowUpper <;> infer_instance

theorem AboveLower.mono {b : Bound α} {a a' : α} (h : b.AboveLower a) (hle : a ≤ a') :
    b.AboveLower a' := by
  cases b with
  | included b => exact le_trans h hle
  | excluded b => exact lt_of_lt_of_le h hle
  | unbounded => trivial

theorem BelowUpper.mono {b : Bound α} {a a' : α} (h : b.BelowUpper a') (hle : a ≤ a') :
    b.BelowUpper a := by
  cases b with
  | included b => exact le_trans hle h
  | excluded b => exact lt_of_le_of_lt hle h
  | unbounded => trivial

end Bound

variable {κ : Type} [LinearOrder κ]

/-- Insert into a sorted list; an entry with the same key is replaced. -/
def insertEntry (k : κ) (v : Bytes) : List (κ × Bytes) → List (κ × Bytes)
  | [] => [(k, v)]
  | a :: l =>
    if k < a.1 then (k, v) :: a :: l
    else if a.1 < k then a :: insertEntry k v l
    else (k, v) :: l

theorem mem_insertEntry {k : κ} {v : Bytes} {l : List (κ × Bytes)} (h : SortedRun l) {x : κ × Bytes} :
    x ∈ insertEntry k v l ↔ x = (k, v) ∨ x ∈ l ∧ x.1 ≠ k := by
  induction l with
  | nil => simp [insertEntry]
  | cons a l ih =>
    have hhead : ∀ b ∈ l, a.1 < b.1 := fun b hb => h.head_lt hb
    rw [insertEntry]
    rcases lt_trichotomy k a.1 with hlt | heq | hgt
    · have hne : ∀ b ∈ a :: l, b.1 ≠ k := fun b hb => (hlt.trans_le (h.head_le hb)).ne'
      rw [if_pos hlt, List.mem_cons]
      exact or_congr_right ⟨fun hx => ⟨hx, hne x hx⟩, fun hx => hx.1⟩
    · subst heq
      rw [if_neg (lt_irrefl _), if_neg (lt_irrefl _), List.mem_cons, List.mem_cons]
      refine or_congr_right ⟨fun hx => ⟨Or.inr hx, (hhead x hx).ne'⟩, ?_⟩
      rintro ⟨rfl | hx, hne⟩
      · exact absurd rfl hne
      · exact hx
    · rw [if_neg hgt.not_gt, if_pos hgt, List.mem_cons, List.mem_cons, ih h.tail]
      constructor
      · rintro (rfl | rfl | ⟨hx, hne⟩)
        · exact Or.inr ⟨Or.inl rfl, hgt.ne⟩
        · exact Or.inl rfl
        · exact Or.inr ⟨Or.inr hx, hne⟩
      · rintro (rfl | ⟨rfl | hx, hne⟩)
        · exact Or.inr (Or.inl rfl)
        · exact Or.inl rfl
        · exact Or.inr (Or.inr ⟨hx, hne⟩)

theorem sortedRun_insertEntry {k : κ} {v : Bytes} {l : List (κ × Bytes)} (h : SortedRun l) :
    SortedRun (insertEntry k v l) := by
  induction l with
  | nil => exact SortedRun.singleton _
  | cons a l ih =>
    rw [insertEntry]
    rcases lt_trichotomy k a.1 with hlt | heq | hgt
    · rw [if_pos hlt]
      exact SortedRun.cons_iff.mpr ⟨fun b hb => hlt.trans_le (h.head_le hb), h⟩
    · subst heq
      rw [if_neg (lt_irrefl _), if_neg (lt_irrefl _)]
      exact SortedRun.cons_iff.mpr ⟨fun b hb => h.head_lt hb, h.tail⟩
    · rw [if_neg hgt.not_gt, if_pos hgt]
      refine SortedRun.cons_iff.mpr ⟨fun b hb => ?_, ih h.tail⟩
      rcases (mem_insertEntry h.tail).mp hb with rfl | ⟨hb, -⟩
      · exact hgt
      · exact h.head_lt hb

/-- A map from keys to values, sorted by key. -/
structure SkipMap (κ : Type := Key) [LinearOrder κ] where
  entries : List (κ × Bytes)
  sorted : SortedRun entries

namespace SkipMap

/-- The empty map. -/
def new : SkipMap κ := ⟨[], SortedRun.nil⟩

/-- There is no entry. -/
def isEmpty (m : SkipMap κ) : Bool := m.entries.isEmpty

/-- Insert a value, over the one that the key has. -/
def insert (m : SkipMap κ) (k : κ) (v : Bytes) : SkipMap κ :=
  ⟨insertEntry k v m.entries, sortedRun_insertEntry m.sorted⟩

/-- The value of a key. -/
def get (m : SkipMap κ) (k : κ) : Option Bytes := (m.entries.find? fun e => e.1 = k).map Prod.snd

/-- The entries between two bounds. -/
def range (m : SkipMap κ) (lower upper : Bound κ) : List (κ × Bytes) :=
  m.entries.filter fun e => lower.AboveLower e.1 ∧ upper.BelowUpper e.1

theorem get_eq_some_iff {m : SkipMap κ} {k : κ} {v : Bytes} :
    m.get k = some v ↔ (k, v) ∈ m.entries := by
  unfold get
  rw [Option.map_eq_some_iff]
  constructor
  · rintro ⟨e, hfind, rfl⟩
    have hkey : e.1 = k := by simpa using List.find?_some hfind
    rw [← hkey]
    exact List.mem_of_find?_eq_some hfind
  · intro hmem
    cases hfind : m.entries.find? fun e => decide (e.1 = k) with
    | none =>
      have hne := List.find?_eq_none.mp hfind (k, v) hmem
      simp at hne
    | some e =>
      have hkey : e.1 = k := by simpa using List.find?_some hfind
      have he : (k, e.2) ∈ m.entries := by
        rw [← hkey]
        exact List.mem_of_find?_eq_some hfind
      exact ⟨e, rfl, m.sorted.inj he hmem⟩

theorem mem_insert {m : SkipMap κ} {k : κ} {v : Bytes} {x : κ × Bytes} :
    x ∈ (m.insert k v).entries ↔ x = (k, v) ∨ x ∈ m.entries ∧ x.1 ≠ k :=
  mem_insertEntry m.sorted

theorem insert_ne_nil (m : SkipMap κ) (k : κ) (v : Bytes) : (m.insert k v).entries ≠ [] := by
  intro hnil
  have hmem : (k, v) ∈ (m.insert k v).entries := mem_insert.mpr (Or.inl rfl)
  rw [hnil] at hmem
  cases hmem

/-- Insert one entry after the other. -/
def insertAll (m : SkipMap κ) (es : List (κ × Bytes)) : SkipMap κ :=
  es.foldl (fun m e => m.insert e.1 e.2) m

theorem insertAll_cons (m : SkipMap κ) (e : κ × Bytes) (es : List (κ × Bytes)) :
    m.insertAll (e :: es) = (m.insert e.1 e.2).insertAll es := rfl

theorem insertAll_append (m : SkipMap κ) (es es' : List (κ × Bytes)) :
    m.insertAll (es ++ es') = (m.insertAll es).insertAll es' := List.foldl_append

theorem insertAll_eq_nil_iff {m : SkipMap κ} {es : List (κ × Bytes)} :
    (m.insertAll es).entries = [] ↔ es = [] ∧ m.entries = [] := by
  rcases List.eq_nil_or_concat es with rfl | ⟨es, e, rfl⟩
  · simp [insertAll]
  · rw [List.concat_eq_append, insertAll_append]
    exact iff_of_false (insert_ne_nil _ _ _) (by simp)

/-- Of the entries with one key the last one is inserted. -/
theorem mem_insertAll {m : SkipMap κ} {es : List (κ × Bytes)} {x : κ × Bytes} :
    x ∈ (m.insertAll es).entries ↔
      (es.filter fun e => e.1 = x.1).getLast? = some x ∨ x.1 ∉ runKeys es ∧ x ∈ m.entries := by
  induction es generalizing m with
  | nil => simp [insertAll]
  | cons e es ih =>
    rw [insertAll_cons, ih, mem_insert]
    by_cases hkey : e.1 = x.1
    · rw [List.filter_cons_of_pos (by simpa using hkey), List.getLast?_cons]
      have hnot : ¬(x.1 ∉ runKeys (e :: es) ∧ x ∈ m.entries) := by simp [hkey]
      rw [or_iff_left hnot]
      cases hlast : (es.filter fun e => decide (e.1 = x.1)).getLast? with
      | none =>
        have hes : x.1 ∉ runKeys es := by
          intro hmem
          obtain ⟨v, hv⟩ := mem_runKeys.mp hmem
          rw [List.getLast?_eq_none_iff, List.filter_eq_nil_iff] at hlast
          exact hlast _ hv (by simp)
        have heta : (x.1, e.2) = e := by rw [← hkey]
        simp [hes, hkey, eq_comm]
        rw [heta]
      | some a =>
        have hes : x.1 ∈ runKeys es := by
          have ha := List.mem_filter.mp (List.mem_of_getLast? hlast)
          rw [show x.1 = a.1 by simpa [eq_comm] using ha.2]
          exact fst_mem_runKeys ha.1
        simp [hes]
    · rw [List.filter_cons_of_neg (by simpa using hkey)]
      have hne : x ≠ e := fun h => hkey (by rw [h])
      simp [hne, Ne.symm hkey, and_comm]

end SkipMap

end TinyLsm
