import TinyLsm.Iterators.StorageIterator

/-!
# The k-way merge (`iterators/merge_iterator.rs`)

`MergeIterator` keeps its children in a binary heap ordered by current key and, on equal keys, by
the position at which the child was passed in.  `next` advances the current child, then pops and
advances every child that stands at the key just returned, so the later duplicates of a key are
skipped.

`create_yields` is the specification: children that hand out sorted runs merge into the
left-biased union of these runs.

The invariant behind it is `HeapHolds f ws`: the heap `ws` holds one child for each index `i` with
`f i ≠ []`, and that child still has to hand out `f i`.  While the heap is reordered and its
children advance, the family `f` only loses heads, and `IsUnionOf.head` says what that does to the
union.
-/

namespace TinyLsm

open StorageIterator

/-- `HeapWrapper(usize, Box<I>)`: a child and its position among the children. -/
structure HeapWrapper (I : Type) where
  index : ℕ
  iter : I

/-- `MergeIterator`: the children in the heap and the child that is current. -/
structure MergeIterator (I : Type) where
  iters : List (HeapWrapper I)
  current : Option (HeapWrapper I)

section

variable {I : Type} [StorageIterator I Key]

/-- `Ord for HeapWrapper`: by key, then by index, reversed, so that the greatest element is the
child with the smallest key and, among these, the smallest index. -/
def HeapWrapper.cmp (a b : HeapWrapper I) : Ordering :=
  ((compare (key a.iter) (key b.iter)).then (compare a.index b.index)).swap

/-- `BinaryHeap::pop`: the greatest element and the others. -/
def heapPop : List (HeapWrapper I) → Option (HeapWrapper I × List (HeapWrapper I))
  | [] => none
  | w :: ws =>
    match heapPop ws with
    | none => some (w, [])
    | some (m, rest) => if w.cmp m = .lt then some (m, w :: rest) else some (w, m :: rest)

namespace MergeIterator

/-- `MergeIterator::create`: the least of the children that are valid is shown. -/
def create (iters : List I) : MergeIterator I :=
  -- children that are already exhausted never enter the heap
  let heap := (iters.zipIdx.filter fun p => isValid p.1).map fun p => ⟨p.2, p.1⟩
  match heapPop heap with
  | none => ⟨[], none⟩
  | some (w, heap) => ⟨heap, some w⟩

/-- The loop of `next`: pop children, and advance those that stand at `prevKey`. -/
def skipLoop (prevKey : Key) : ℕ → List (HeapWrapper I) → Stepped (MergeIterator I)
  | 0, heap =>
    match heapPop heap with
    | none => (.ok (), ⟨[], none⟩)
    | some (w, heap) =>
      if key w.iter ≠ prevKey ∧ isValid w.iter then (.ok (), ⟨heap, some w⟩)
      else (.error (.panic "iterator did not end"), ⟨heap, none⟩)
  | n + 1, heap =>
    match heapPop heap with
    | none => (.ok (), ⟨[], none⟩)
    | some (w, heap) =>
      if key w.iter = prevKey then
        match StorageIterator.next w.iter with
        | (.ok (), it) =>
          if isValid it then skipLoop prevKey n (⟨w.index, it⟩ :: heap) else skipLoop prevKey n heap
        -- `?`: the child that failed has left the heap and is dropped
        | (.error e, _) => (.error e, ⟨heap, none⟩)
      else if isValid w.iter then (.ok (), ⟨heap, some w⟩)
      else skipLoop prevKey n heap

/-- The bound handed to the loop. -/
def heapBound (heap : List (HeapWrapper I)) : ℕ :=
  (heap.map fun w => remaining w.iter + 1).sum

/-- Step over the key that is shown, in every child that shows it. -/
def next (m : MergeIterator I) : Stepped (MergeIterator I) :=
  match m.current with
  | none => skipLoop Key.new (heapBound m.iters) m.iters
  | some curr =>
    let prevKey := key curr.iter
    match StorageIterator.next curr.iter with
    | (.ok (), it) =>
      let heap := if isValid it then ⟨curr.index, it⟩ :: m.iters else m.iters
      skipLoop prevKey (heapBound heap) heap
    | (.error e, _) => (.error e, ⟨m.iters, none⟩)

instance : StorageIterator (MergeIterator I) Key where
  value m := match m.current with
    | some curr => value curr.iter
    | none => []
  key m := match m.current with
    | some curr => key curr.iter
    | none => ⟨[], tsDefault⟩
  isValid m := m.current.isSome
  next := next
  remaining m := ((m.current.toList ++ m.iters).map fun w => remaining w.iter).sum

end MergeIterator

/-! ## The heap -/

/-- `a` comes out of the heap no later than `b`. -/
def HeapWrapper.Precedes (a b : HeapWrapper I) : Prop :=
  key a.iter < key b.iter ∨ key a.iter = key b.iter ∧ a.index ≤ b.index

theorem HeapWrapper.cmp_eq_lt_iff {a b : HeapWrapper I} :
    a.cmp b = .lt ↔ key b.iter < key a.iter ∨ key b.iter = key a.iter ∧ b.index < a.index := by
  rw [cmp, Ordering.swap_eq_lt, Ordering.then_eq_gt, compare_gt_iff_gt, compare_eq_iff_eq,
    compare_gt_iff_gt]
  exact or_congr_right (and_congr_left' eq_comm)

theorem HeapWrapper.Precedes.of_not_lt {a b : HeapWrapper I} (h : a.cmp b ≠ .lt) :
    a.Precedes b := by
  rw [ne_eq, cmp_eq_lt_iff, not_or, not_lt, not_and, not_lt] at h
  rcases h.1.lt_or_eq with hlt | heq
  · exact Or.inl hlt
  · exact Or.inr ⟨heq, h.2 heq.symm⟩

theorem HeapWrapper.Precedes.of_lt {a b : HeapWrapper I} (h : a.cmp b = .lt) : b.Precedes a := by
  rcases cmp_eq_lt_iff.mp h with hlt | ⟨heq, hidx⟩
  · exact Or.inl hlt
  · exact Or.inr ⟨heq, hidx.le⟩

theorem HeapWrapper.Precedes.trans {a b c : HeapWrapper I} (hab : a.Precedes b)
    (hbc : b.Precedes c) : a.Precedes c := by
  rcases hab with hab | ⟨hab, hi⟩ <;> rcases hbc with hbc | ⟨hbc, hi'⟩
  · exact Or.inl (hab.trans hbc)
  · exact Or.inl (hbc ▸ hab)
  · exact Or.inl (hab ▸ hbc)
  · exact Or.inr ⟨hab.trans hbc, hi.trans hi'⟩

theorem heapPop_eq_none_iff {ws : List (HeapWrapper I)} : heapPop ws = none ↔ ws = [] := by
  cases ws with
  | nil => simp [heapPop]
  | cons w ws =>
    rw [heapPop]
    split
    · simp
    · split <;> simp

/-- What `pop` returns: one of the elements, which precedes all the others. -/
theorem heapPop_spec {ws rest : List (HeapWrapper I)} {w : HeapWrapper I}
    (h : heapPop ws = some (w, rest)) : ws.Perm (w :: rest) ∧ ∀ x ∈ rest, w.Precedes x := by
  induction ws generalizing w rest with
  | nil => simp [heapPop] at h
  | cons a ws ih =>
    rw [heapPop] at h
    split at h
    · rename_i hnone
      rw [heapPop_eq_none_iff] at hnone
      simp only [Option.some.injEq, Prod.mk.injEq] at h
      obtain ⟨rfl, rfl⟩ := h
      rw [hnone]
      exact ⟨List.Perm.refl _, by simp⟩
    · rename_i m r hsome
      obtain ⟨hperm, hprec⟩ := ih hsome
      split at h
      · -- the popped tail element beats `a`
        rename_i hlt
        simp only [Option.some.injEq, Prod.mk.injEq] at h
        obtain ⟨rfl, rfl⟩ := h
        refine ⟨(hperm.cons a).trans (List.Perm.swap _ _ _), fun x hx => ?_⟩
        rcases List.mem_cons.mp hx with rfl | hx
        · exact HeapWrapper.Precedes.of_lt hlt
        · exact hprec x hx
      · rename_i hlt
        simp only [Option.some.injEq, Prod.mk.injEq] at h
        obtain ⟨rfl, rfl⟩ := h
        have ha := HeapWrapper.Precedes.of_not_lt hlt
        refine ⟨hperm.cons _, fun x hx => ?_⟩
        rcases List.mem_cons.mp hx with rfl | hx
        · exact ha
        · exact ha.trans (hprec x hx)

/-! ## The heap invariant -/

variable {P : I → Prop}

/-- The heap holds, for each `i` with `f i ≠ []`, one child that still has to hand out `f i`. -/
structure HeapHolds (P : I → Prop) (f : ℕ → List Entry) (ws : List (HeapWrapper I)) : Prop where
  yields : ∀ w ∈ ws, Yields P w.iter (f w.index)
  ne_nil : ∀ w ∈ ws, f w.index ≠ []
  nodup : (ws.map HeapWrapper.index).Nodup
  eq_nil : ∀ i, i ∉ ws.map HeapWrapper.index → f i = []
  sorted : ∀ i, SortedRun (f i)

namespace HeapHolds

variable {f : ℕ → List Entry} {ws ws' : List (HeapWrapper I)} {w : HeapWrapper I}

theorem perm (h : HeapHolds P f ws) (hp : ws.Perm ws') : HeapHolds P f ws' where
  yields x hx := h.yields x (hp.mem_iff.mpr hx)
  ne_nil x hx := h.ne_nil x (hp.mem_iff.mpr hx)
  nodup := (hp.map _).nodup_iff.mp h.nodup
  eq_nil i hi := h.eq_nil i fun hi' => hi ((hp.map _).mem_iff.mp hi')
  sorted := h.sorted

/-- A child in the heap stands at the head of its run. -/
theorem head (h : HeapHolds P f ws) (hw : w ∈ ws) :
    ∃ v l, f w.index = (key w.iter, v) :: l ∧ value w.iter = v ∧ isValid w.iter = true ∧
      ∃ it, StorageIterator.next w.iter = (.ok (), it) ∧ Yields P it l := by
  have hy := h.yields w hw
  rcases hf : f w.index with _ | ⟨a, l⟩
  · exact absurd hf (h.ne_nil w hw)
  · rw [hf] at hy
    obtain ⟨hvalid, hkey, hvalue, hnext⟩ := hy.head
    exact ⟨a.2, l, by rw [hkey], hvalue, hvalid, hnext⟩

/-- The child that comes out first has the smallest key of all. -/
theorem key_le (h : HeapHolds P f (w :: ws)) (hw : ∀ x ∈ ws, w.Precedes x) (i : ℕ) :
    ∀ x ∈ f i, key w.iter ≤ x.1 := by
  intro x hx
  have hi : i ∈ (w :: ws).map HeapWrapper.index := by
    by_contra hi
    rw [h.eq_nil i hi] at hx
    simp at hx
  obtain ⟨c, hc, rfl⟩ := List.mem_map.mp hi
  obtain ⟨v, l, hf, -⟩ := h.head hc
  have hcx : key c.iter ≤ x.1 := by
    rw [hf] at hx
    exact (hf ▸ h.sorted c.index).head_le hx
  rcases List.mem_cons.mp hc with rfl | hc
  · exact hcx
  · rcases hw c hc with hlt | ⟨heq, -⟩
    · exact hlt.le.trans hcx
    · exact heq.le.trans hcx

/-- No child before the one that comes out first has its key. -/
theorem key_notMem (h : HeapHolds P f (w :: ws)) (hw : ∀ x ∈ ws, w.Precedes x) (j : ℕ)
    (hj : j < w.index) : key w.iter ∉ runKeys (f j) := by
  intro hk
  have hmem : j ∈ (w :: ws).map HeapWrapper.index := by
    by_contra hmem
    rw [h.eq_nil j hmem] at hk
    simp at hk
  obtain ⟨c, hc, rfl⟩ := List.mem_map.mp hmem
  obtain ⟨v, l, hf, -⟩ := h.head hc
  rcases List.mem_cons.mp hc with rfl | hc
  · exact lt_irrefl _ hj
  · rcases hw c hc with hlt | ⟨-, hidx⟩
    · obtain ⟨u, hu⟩ := mem_runKeys.mp hk
      rw [hf] at hu
      exact absurd hlt (not_lt.mpr ((hf ▸ h.sorted c.index).head_le hu))
    · exact absurd hj (not_lt.mpr hidx)

/-- Advancing a child that stands at `k` does not touch the entries at other keys. -/
theorem filter_update {k : Key} {v : Bytes} {l : List Entry} {j : ℕ} (hf : f j = (k, v) :: l) :
    (fun i => (Function.update f j l i).filter fun a => a.1 ≠ k) =
      fun i => (f i).filter fun a => a.1 ≠ k := by
  funext i
  by_cases hi : i = j
  · subst hi
    rw [Function.update_self, hf, List.filter_cons_of_neg (by simp)]
  · rw [Function.update_of_ne hi]

theorem le_update {k : Key} {a : Entry} {l : List Entry} {j : ℕ} (hf : f j = a :: l)
    (hle : ∀ i, ∀ x ∈ f i, k ≤ x.1) : ∀ i, ∀ x ∈ Function.update f j l i, k ≤ x.1 := by
  intro i x hx
  by_cases hi : i = j
  · subst hi
    rw [Function.update_self] at hx
    exact hle i x (by rw [hf]; exact List.mem_cons_of_mem _ hx)
  · rw [Function.update_of_ne hi] at hx
    exact hle i x hx

/-- Advancing one child: it goes back into the heap, or leaves it when it is exhausted. -/
theorem advance (h : HeapHolds P f (w :: ws)) {a : Entry} {l : List Entry} {it : I}
    (hf : f w.index = a :: l) (hy : Yields P it l) :
    HeapHolds P (Function.update f w.index l)
      (if isValid it then ⟨w.index, it⟩ :: ws else ws) := by
  have hnd := List.nodup_cons.mp h.nodup
  have hne : ∀ x ∈ ws, x.index ≠ w.index := fun x hx heq =>
    hnd.1 (heq ▸ List.mem_map_of_mem hx)
  have hws : ∀ x ∈ ws, Function.update f w.index l x.index = f x.index := fun x hx =>
    Function.update_of_ne (hne x hx) l f
  have hsorted : ∀ i, SortedRun (Function.update f w.index l i) := by
    intro i
    by_cases hi : i = w.index
    · subst hi
      rw [Function.update_self]
      exact (hf ▸ h.sorted w.index).tail
    · rw [Function.update_of_ne hi]
      exact h.sorted i
  by_cases hvalid : isValid it = true
  · rw [if_pos hvalid]
    refine ⟨fun x hx => ?_, fun x hx => ?_, h.nodup, fun i hi => ?_, hsorted⟩
    · rcases List.mem_cons.mp hx with rfl | hx
      · rwa [Function.update_self]
      · rw [hws x hx]
        exact h.yields x (List.mem_cons_of_mem _ hx)
    · rcases List.mem_cons.mp hx with rfl | hx
      · rw [Function.update_self]
        exact hy.isValid_iff.mp hvalid
      · rw [hws x hx]
        exact h.ne_nil x (List.mem_cons_of_mem _ hx)
    · rw [List.map_cons, List.mem_cons, not_or] at hi
      rw [Function.update_of_ne hi.1]
      exact h.eq_nil i (by simpa using hi)
  · have hl : l = [] := hy.isValid_eq_false_iff.mp (by simpa using hvalid)
    rw [if_neg hvalid]
    refine ⟨fun x hx => ?_, fun x hx => ?_, hnd.2, fun i hi => ?_, hsorted⟩
    · rw [hws x hx]
      exact h.yields x (List.mem_cons_of_mem _ hx)
    · rw [hws x hx]
      exact h.ne_nil x (List.mem_cons_of_mem _ hx)
    · by_cases hiw : i = w.index
      · rw [hiw, Function.update_self, hl]
      · rw [Function.update_of_ne hiw]
        exact h.eq_nil i (by simpa [hiw] using hi)

/-- The number of entries still to come from the heap. -/
theorem sum_length_le (h : HeapHolds P f ws) :
    (ws.map fun w => (f w.index).length).sum ≤ (ws.map fun w => remaining w.iter).sum :=
  List.sum_le_sum fun w hw => (h.yields w hw).length_le

theorem length_union_le (h : HeapHolds P f ws) {out : List Entry} (hu : IsUnionOf f out) :
    out.length ≤ (ws.map fun w => remaining w.iter).sum := by
  have hsub : out ⊆ ws.flatMap fun w => f w.index := by
    intro x hx
    obtain ⟨i, hi, -⟩ := (hu.mem_iff x).mp hx
    have hmem : i ∈ ws.map HeapWrapper.index := by
      by_contra hmem
      rw [h.eq_nil i hmem] at hi
      simp at hi
    obtain ⟨w, hw, rfl⟩ := List.mem_map.mp hmem
    exact List.mem_flatMap.mpr ⟨w, hw, hi⟩
  calc out.length ≤ (ws.flatMap fun w => f w.index).length :=
        (hu.sorted.nodup.subperm hsub).length_le
    _ = (ws.map fun w => (f w.index).length).sum := by rw [List.length_flatMap]
    _ ≤ _ := h.sum_length_le

end HeapHolds

/-! ## The merge -/

namespace MergeIterator

/-- The merge still has to hand out `out`. -/
def Holds (P : I → Prop) (m : MergeIterator I) (out : List Entry) : Prop :=
  match m.current with
  | none => m.iters = [] ∧ out = []
  | some w => ∃ f, HeapHolds P f (w :: m.iters) ∧ IsUnionOf f out ∧ ∀ x ∈ m.iters, w.Precedes x

/-- Popping the heap makes its first child current. -/
theorem holds_of_heapPop {f : ℕ → List Entry} {ws rest : List (HeapWrapper I)} {w : HeapWrapper I}
    {out : List Entry} (hpop : heapPop ws = some (w, rest)) (h : HeapHolds P f ws)
    (hu : IsUnionOf f out) : Holds P ⟨rest, some w⟩ out := by
  obtain ⟨hperm, hprec⟩ := heapPop_spec hpop
  exact ⟨f, h.perm hperm, hu, hprec⟩

theorem holds_of_heapPop_none {f : ℕ → List Entry} {ws : List (HeapWrapper I)} {out : List Entry}
    (hpop : heapPop ws = none) (h : HeapHolds P f ws) (hu : IsUnionOf f out) :
    Holds P (⟨[], none⟩ : MergeIterator I) out := by
  rw [heapPop_eq_none_iff] at hpop
  subst hpop
  exact ⟨rfl, hu.unique (IsUnionOf.of_empty fun i => h.eq_nil i (by simp))⟩

/-- **The skip loop.**  When no entry in the heap lies below `k`, the loop removes the entries at
`k` and leaves a merge of the rest.  The induction is on the bound; each round removes one head. -/
theorem skipLoop_spec {k : Key} {out : List Entry} (n : ℕ) {f : ℕ → List Entry}
    {ws : List (HeapWrapper I)} (h : HeapHolds P f ws) (hle : ∀ i, ∀ x ∈ f i, k ≤ x.1)
    (hu : IsUnionOf (fun i => (f i).filter fun a => a.1 ≠ k) out)
    (hn : (ws.map fun w => (f w.index).length).sum ≤ n) :
    ∃ m, skipLoop k n ws = (.ok (), m) ∧ Holds P m out := by
  -- once the first child stands above `k`, so does everything
  have hfilter : ∀ {f : ℕ → List Entry} {w : HeapWrapper I} {rest : List (HeapWrapper I)},
      HeapHolds P f (w :: rest) → (∀ x ∈ rest, w.Precedes x) → (∀ i, ∀ x ∈ f i, k ≤ x.1) →
      key w.iter ≠ k → (fun i => (f i).filter fun a => a.1 ≠ k) = f := by
    intro f w rest hf hprec hle hk
    funext i
    refine List.filter_eq_self.mpr fun x hx => ?_
    have hkw : k ≤ key w.iter := by
      obtain ⟨v, l, hfw, -⟩ := hf.head List.mem_cons_self
      exact hle w.index (key w.iter, v) (by rw [hfw]; exact List.mem_cons_self)
    simpa using ((lt_of_le_of_ne hkw (Ne.symm hk)).trans_le (hf.key_le hprec i x hx)).ne'
  induction n generalizing f ws with
  | zero =>
    have hws : ws = [] := by
      rcases ws with _ | ⟨w, ws⟩
      · rfl
      · have hpos := List.length_pos_of_ne_nil (h.ne_nil w List.mem_cons_self)
        rw [List.map_cons, List.sum_cons] at hn
        omega
    subst hws
    refine ⟨⟨[], none⟩, rfl, rfl, hu.unique (IsUnionOf.of_empty fun i => ?_)⟩
    rw [h.eq_nil i (by simp), List.filter_nil]
  | succ n ih =>
    rw [skipLoop]
    cases hpop : heapPop ws with
    | none =>
      rw [heapPop_eq_none_iff] at hpop
      subst hpop
      refine ⟨⟨[], none⟩, rfl, rfl, hu.unique (IsUnionOf.of_empty fun i => ?_)⟩
      rw [h.eq_nil i (by simp), List.filter_nil]
    | some p =>
      obtain ⟨w, rest⟩ := p
      obtain ⟨hperm, hprec⟩ := heapPop_spec hpop
      have hw := h.perm hperm
      obtain ⟨v, l, hf, -, hvalid, it, hnext, hy⟩ := hw.head List.mem_cons_self
      by_cases hk : key w.iter = k
      · -- the child stands at `k`: advance it and go on
        have hadv := hw.advance hf hy
        have hnd := List.nodup_cons.mp hw.nodup
        have hrest : (rest.map fun x => (Function.update f w.index l x.index).length).sum =
            (rest.map fun x => (f x.index).length).sum := by
          refine congrArg List.sum (List.map_congr_left fun x hx => ?_)
          rw [Function.update_of_ne]
          intro heq
          exact hnd.1 (heq ▸ List.mem_map_of_mem hx)
        have hn' : l.length + (rest.map fun x => (f x.index).length).sum ≤ n := by
          rw [(hperm.map _).sum_eq, List.map_cons, List.sum_cons, hf, List.length_cons] at hn
          omega
        simp only [if_pos hk, hnext]
        by_cases hv : isValid it = true
        · rw [if_pos hv] at hadv ⊢
          refine ih hadv (HeapHolds.le_update hf hle)
            (by rwa [HeapHolds.filter_update (hk ▸ hf)]) ?_
          rw [List.map_cons, List.sum_cons, hrest, Function.update_self]
          exact hn'
        · rw [if_neg hv] at hadv ⊢
          refine ih hadv (HeapHolds.le_update hf hle)
            (by rwa [HeapHolds.filter_update (hk ▸ hf)]) ?_
          rw [hrest]
          omega
      · refine ⟨⟨rest, some w⟩, ?_, f, hw, ?_, hprec⟩
        · simp only [if_neg hk, hvalid, if_true]
        · rwa [hfilter hw hprec hle hk] at hu

/-- One call of `next` hands out the head of the union. -/
theorem next_spec {m : MergeIterator I} {a : Entry} {out : List Entry}
    (h : Holds P m (a :: out)) :
    isValid m = true ∧ key m = a.1 ∧ value m = a.2 ∧ out.length < remaining m ∧
      ∃ m', StorageIterator.next m = (.ok (), m') ∧ Holds P m' out := by
  obtain ⟨iters, current⟩ := m
  rcases current with _ | w
  · exact absurd h.2 (by simp)
  obtain ⟨f, hf, hu, hprec⟩ := h
  have hbound := hf.length_union_le hu
  obtain ⟨v, l, hfw, hvalue, hvalid, it, hnext, hy⟩ := hf.head List.mem_cons_self
  have hle : ∀ i, ∀ x ∈ f i, key w.iter ≤ x.1 := hf.key_le hprec
  obtain ⟨out', hout, hu'⟩ := hu.head hfw hle (hf.key_notMem hprec)
  simp only [List.cons.injEq] at hout
  obtain ⟨rfl, rfl⟩ := hout
  refine ⟨rfl, rfl, hvalue, hbound, ?_⟩
  have hadv := hf.advance hfw hy
  obtain ⟨m', hloop, hm'⟩ := skipLoop_spec
    (heapBound (if isValid it then ⟨w.index, it⟩ :: iters else iters)) hadv
    (HeapHolds.le_update hfw hle) (by rwa [HeapHolds.filter_update hfw])
    (hadv.sum_length_le.trans (List.sum_le_sum fun x _ => Nat.le_succ _))
  refine ⟨m', ?_, hm'⟩
  show next _ = _
  simp only [next, hnext]
  exact hloop

theorem drained_of_holds_nil {m : MergeIterator I} (h : Holds P m []) : Drained m := by
  refine Drained.of_invariant (fun m : MergeIterator I => m = ⟨[], none⟩) ?_ ?_ ?_
  · intro m hm
    rw [hm]
    rfl
  · intro m hm
    rw [hm]
    exact ⟨⟨[], none⟩, rfl, rfl⟩
  · obtain ⟨iters, current⟩ := m
    rcases current with _ | w
    · obtain ⟨rfl, -⟩ := h
      rfl
    · obtain ⟨f, hf, hu, -⟩ := h
      obtain ⟨v, l, hfw, -⟩ := hf.head List.mem_cons_self
      have hk := (hu.mem_runKeys_iff).mpr ⟨w.index, by rw [hfw]; exact List.mem_cons_self⟩
      simp at hk

theorem yields_of_holds {m : MergeIterator I} {out : List Entry} (h : Holds P m out) :
    Yields Drained m out := by
  refine Yields.of_sim (Holds P) (fun m hm => ?_) (fun m a l hm => next_spec hm) h
  have hd := drained_of_holds_nil hm
  exact ⟨hd.isValid, hd⟩

/-- The heap that `create` builds holds the runs of the children. -/
theorem heapHolds_create {iters : List I} {ls : List (List Entry)}
    (h : List.Forall₂ (Yields P) iters ls) (hs : ∀ l ∈ ls, SortedRun l) :
    HeapHolds P (fun i => ls.getD i [])
      ((iters.zipIdx.filter fun p => isValid p.1).map fun p => ⟨p.2, p.1⟩) := by
  have hlen := h.length_eq
  have hget : ∀ i (hi : i < iters.length), Yields P iters[i] (ls.getD i []) := by
    intro i hi
    rw [List.getD_eq_getElem _ _ (hlen ▸ hi)]
    exact (List.forall₂_iff_get.mp h).2 i hi (hlen ▸ hi)
  have hmem : ∀ w ∈ (iters.zipIdx.filter fun p => isValid p.1).map
      (fun p => (⟨p.2, p.1⟩ : HeapWrapper I)),
      Yields P w.iter (ls.getD w.index []) ∧ isValid w.iter = true := by
    intro w hw
    obtain ⟨⟨it, i⟩, hp, rfl⟩ := List.mem_map.mp hw
    obtain ⟨hz, hv⟩ := List.mem_filter.mp hp
    obtain ⟨hi, heq⟩ := List.mem_zipIdx' hz
    exact ⟨by rw [heq]; exact hget i hi, hv⟩
  refine ⟨fun w hw => (hmem w hw).1, fun w hw => (hmem w hw).1.isValid_iff.mp (hmem w hw).2, ?_,
    fun i hi => ?_, fun i => ?_⟩
  · rw [List.map_map]
    have hsub : ((iters.zipIdx.filter fun p => isValid p.1).map Prod.snd).Sublist
        (iters.zipIdx.map Prod.snd) := List.filter_sublist.map _
    rw [List.zipIdx_map_snd] at hsub
    exact hsub.nodup List.nodup_range'
  · by_cases hlt : i < iters.length
    · refine (hget i hlt).isValid_eq_false_iff.mp ?_
      by_contra hv
      refine hi (List.mem_map.mpr ⟨⟨i, iters[i]⟩, List.mem_map.mpr ⟨(iters[i], i), ?_, rfl⟩, rfl⟩)
      rw [List.mem_filter]
      exact ⟨List.mk_mem_zipIdx_iff_getElem?.mpr (List.getElem?_eq_getElem hlt), by simpa using hv⟩
    · exact List.getD_eq_default _ _ (by omega)
  · by_cases hlt : i < ls.length
    · rw [List.getD_eq_getElem _ _ hlt]
      exact hs _ (List.getElem_mem hlt)
    · rw [List.getD_eq_default _ _ (by omega)]
      exact SortedRun.nil

/-- **The merge hands out the left-biased union of its children.** -/
theorem create_yields {iters : List I} {ls : List (List Entry)}
    (h : List.Forall₂ (Yields P) iters ls) (hs : ∀ l ∈ ls, SortedRun l) :
    Yields Drained (create iters) (unionAll ls) := by
  have hheap := heapHolds_create h hs
  have hu := isUnionOf_unionAll hs
  refine yields_of_holds (P := P) ?_
  rw [create]
  split
  · rename_i hpop
    exact holds_of_heapPop_none hpop hheap hu
  · rename_i w rest hpop
    exact holds_of_heapPop hpop hheap hu

end MergeIterator

end

end TinyLsm
