import TinyLsm.Iterators.Union

/-!
# Errors of the children stay contained (`iterators/merge_iterator.rs`)

A call of `next` on the merge makes calls of `next` on its children.  `Contained` says what becomes
of the children: when the merge returns `Ok`, none of those calls failed, and every child is held
still or exhausted; when it returns `Err`, that is the error of one child, which is held no more.

A child that is not held is not called.  `nextN_unaffected` is the other side of this: what a child
would show after its error makes no difference to anything that the merge shows or returns.
-/

namespace TinyLsm

open StorageIterator

section

variable {I J : Type} [StorageIterator I Key] [StorageIterator J Key]

namespace MergeIterator

/-- No call on the child failed, and it is held still or exhausted. -/
def Keeps (m : MergeIterator I) (w : HeapWrapper I) : Prop :=
  ∃ it, Advanced w.iter it ∧ (isValid it = false ∨ ⟨w.index, it⟩ ∈ m.held)

theorem Keeps.of_advanced {m : MergeIterator I} {i : ℕ} {it it' : I} (hadv : Advanced it it')
    (h : m.Keeps ⟨i, it'⟩) : m.Keeps ⟨i, it⟩ := by
  obtain ⟨it'', hadv', h⟩ := h
  exact ⟨it'', hadv.trans hadv', h⟩

/-- Every child but the lost ones is kept, and the merge holds no others. -/
structure Accounts (lost : ℕ → Prop) (ws : List (HeapWrapper I)) (m : MergeIterator I) : Prop where
  kept : ∀ w ∈ ws, ¬ lost w.index → m.Keeps w
  origin : ∀ x ∈ m.held, ∃ w ∈ ws, w.index = x.index ∧ ¬ lost w.index ∧ Advanced w.iter x.iter

/-- What becomes of the children in a call: it returns `Ok` and keeps them all, or it returns the error
of one of them, keeps the others and is invalid. -/
inductive Contained (ws : List (HeapWrapper I)) : Stepped (MergeIterator I) → Prop where
  | ok {m : MergeIterator I} (h : Accounts (fun _ => False) ws m) : Contained ws (.ok (), m)
  | error {m : MergeIterator I} {e : Fault} {w : HeapWrapper I} (hw : w ∈ ws)
      (hfail : FailsWith e w.iter) (hinvalid : isValid m = false)
      (h : Accounts (fun i => i = w.index) ws m) : Contained ws (.error e, m)

namespace Accounts

variable {lost : ℕ → Prop} {ws rest : List (HeapWrapper I)} {w : HeapWrapper I} {m : MergeIterator I}

/-- The children that are held are kept. -/
theorem of_held (h : ∀ x, x ∈ m.held ↔ x ∈ ws ∧ ¬ lost x.index) : Accounts lost ws m where
  kept x hx hlost := ⟨x.iter, .refl _, Or.inr ((h x).mpr ⟨hx, hlost⟩)⟩
  origin x hx := ⟨x, ((h x).mp hx).1, rfl, ((h x).mp hx).2, .refl _⟩

/-- One child was advanced before. -/
theorem of_push (hws : ∀ x, x ∈ ws ↔ x = w ∨ x ∈ rest) {it : I} (hadv : Advanced w.iter it)
    (h : Accounts lost (⟨w.index, it⟩ :: rest) m) : Accounts lost ws m where
  kept x hx hlost := by
    rcases (hws x).mp hx with rfl | hx
    · exact (h.kept _ List.mem_cons_self hlost).of_advanced hadv
    · exact h.kept x (List.mem_cons_of_mem _ hx) hlost
  origin x hx := by
    obtain ⟨y, hy, hindex, hlost, hyx⟩ := h.origin x hx
    rcases List.mem_cons.mp hy with rfl | hy
    · exact ⟨w, (hws w).mpr (Or.inl rfl), hindex, hlost, hadv.trans hyx⟩
    · exact ⟨y, (hws y).mpr (Or.inr hy), hindex, hlost, hyx⟩

/-- One child was exhausted before. -/
theorem of_drop (hws : ∀ x, x ∈ ws ↔ x = w ∨ x ∈ rest) {it : I} (hadv : Advanced w.iter it)
    (hvalid : isValid it = false) (h : Accounts lost rest m) : Accounts lost ws m where
  kept x hx hlost := by
    rcases (hws x).mp hx with rfl | hx
    · exact ⟨it, hadv, Or.inl hvalid⟩
    · exact h.kept x hx hlost
  origin x hx := by
    obtain ⟨y, hy, hyx⟩ := h.origin x hx
    exact ⟨y, (hws y).mpr (Or.inr hy), hyx⟩

end Accounts

namespace Contained

variable {ws rest : List (HeapWrapper I)} {w : HeapWrapper I} {r : Stepped (MergeIterator I)}

theorem of_push (hws : ∀ x, x ∈ ws ↔ x = w ∨ x ∈ rest) {it : I} (hadv : Advanced w.iter it)
    (h : Contained (⟨w.index, it⟩ :: rest) r) : Contained ws r := by
  cases h with
  | ok h => exact .ok (h.of_push hws hadv)
  | @error m e x hx hfail hinvalid h =>
    rcases List.mem_cons.mp hx with rfl | hx
    · exact .error ((hws w).mpr (Or.inl rfl)) (hfail.of_advanced hadv) hinvalid (h.of_push hws hadv)
    · exact .error ((hws x).mpr (Or.inr hx)) hfail hinvalid (h.of_push hws hadv)

theorem of_drop (hws : ∀ x, x ∈ ws ↔ x = w ∨ x ∈ rest) {it : I} (hadv : Advanced w.iter it)
    (hvalid : isValid it = false) (h : Contained rest r) : Contained ws r := by
  cases h with
  | ok h => exact .ok (h.of_drop hws hadv hvalid)
  | @error m e x hx hfail hinvalid h =>
    exact .error ((hws x).mpr (Or.inr hx)) hfail hinvalid (h.of_drop hws hadv hvalid)

/-- The child that fails is dropped at once. -/
theorem of_fail (hws : ∀ x, x ∈ ws ↔ x = w ∨ x ∈ rest) (hnodup : ∀ x ∈ rest, x.index ≠ w.index)
    (hvalid : isValid w.iter = true) {e : Fault} (hnext : (StorageIterator.next w.iter).1 = .error e) :
    Contained ws (.error e, ⟨rest, none⟩) := by
  refine .error ((hws w).mpr (Or.inl rfl)) ⟨w.iter, .refl _, hvalid, hnext⟩ rfl (.of_held fun x => ?_)
  rw [hws x]
  constructor
  · intro hx
    exact ⟨Or.inr hx, hnodup x hx⟩
  · rintro ⟨rfl | hx, hne⟩
    · exact absurd rfl hne
    · exact hx

end Contained

/-- The positions of the children that the merge holds. -/
def positions (m : MergeIterator I) : List ℕ := m.held.map HeapWrapper.index

/-- The loop accounts for every child of the heap, and no two children it leaves have one position. -/
theorem Skips.contained {k : Key} {ws : List (HeapWrapper I)} {r : Stepped (MergeIterator I)}
    (h : Skips k ws r) (hws : ∀ w ∈ ws, w.Stands) (hnodup : (ws.map HeapWrapper.index).Nodup) :
    Contained ws r ∧ r.2.positions.Nodup := by
  have hpopped : ∀ {ws rest : List (HeapWrapper I)} {w : HeapWrapper I},
      heapPop ws = some (w, rest) → (ws.map HeapWrapper.index).Nodup →
      (∀ x, x ∈ ws ↔ x = w ∨ x ∈ rest) ∧ ((w :: rest).map HeapWrapper.index).Nodup := by
    intro ws rest w hpop hnodup
    obtain ⟨hperm, -⟩ := heapPop_spec hpop
    exact ⟨fun x => by rw [hperm.mem_iff, List.mem_cons], (hperm.map _).nodup_iff.mp hnodup⟩
  induction h with
  | empty => exact ⟨.ok (.of_held fun x => by simp [held]), List.nodup_nil⟩
  | @stop ws rest w hpop _ =>
    obtain ⟨hmem, hnodup⟩ := hpopped hpop hnodup
    refine ⟨.ok (.of_held fun x => ?_), hnodup⟩
    rw [hmem x, and_iff_left not_false, ← List.mem_cons]
    rfl
  | @fail ws rest w hpop _ e hnext =>
    obtain ⟨hmem, hnodup⟩ := hpopped hpop hnodup
    obtain ⟨hw, hrest⟩ := List.nodup_cons.mp hnodup
    refine ⟨.of_fail hmem (fun x hx heq => hw (heq ▸ List.mem_map_of_mem hx)) ?_ hnext, hrest⟩
    exact (hws w ((hmem w).mpr (Or.inl rfl))).1
  | @push ws rest w hpop hkey it hnext hvalid r _ ih =>
    obtain ⟨hmem, hnodup⟩ := hpopped hpop hnodup
    have hadv := Advanced.single (hws w ((hmem w).mpr (Or.inl rfl))).1 hnext
    obtain ⟨hcont, hpos⟩ := ih ((stands_of_push hws hpop hkey hnext).2.2 hvalid).1 hnodup
    exact ⟨hcont.of_push hmem hadv, hpos⟩
  | @drop ws rest w hpop hkey it hnext hvalid r _ ih =>
    obtain ⟨hmem, hnodup⟩ := hpopped hpop hnodup
    have hadv := Advanced.single (hws w ((hmem w).mpr (Or.inl rfl))).1 hnext
    obtain ⟨hcont, hpos⟩ := ih (stands_of_push hws hpop hkey hnext).1 (List.nodup_cons.mp hnodup).2
    exact ⟨hcont.of_drop hmem hadv hvalid, hpos⟩

/-- **One call accounts for every child.** -/
theorem next_contained {m : MergeIterator I} (hm : m.Stands) (hnodup : m.positions.Nodup) :
    Contained m.held (StorageIterator.next m) ∧ (StorageIterator.next m).2.positions.Nodup := by
  have hmoves : Moves m (StorageIterator.next m) := moves_next hm
  generalize StorageIterator.next m = r at hmoves ⊢
  obtain ⟨iters, current⟩ := m
  cases hmoves with
  | idle hcurrent hskips =>
    cases hcurrent
    exact hskips.contained hm hnodup
  | @fail w hcurrent e hnext =>
    cases hcurrent
    obtain ⟨hw, hrest⟩ := List.nodup_cons.mp hnodup
    refine ⟨.of_fail (fun x => List.mem_cons) (fun x hx heq => ?_) (hm w List.mem_cons_self).1 hnext, hrest⟩
    exact hw (heq ▸ List.mem_map_of_mem hx)
  | @advance w hcurrent it hnext r hskips =>
    cases hcurrent
    obtain ⟨-, hrest⟩ := List.nodup_cons.mp hnodup
    have hadv := Advanced.single (hm w List.mem_cons_self).1 hnext
    have hstands := stands_of_advance hm rfl hnext
    by_cases hvalid : isValid it = true
    · simp only [if_pos hvalid] at hskips hstands
      obtain ⟨hcont, hpos⟩ := hskips.contained hstands hnodup
      exact ⟨hcont.of_push (fun x => List.mem_cons) hadv, hpos⟩
    · simp only [if_neg hvalid] at hskips hstands
      obtain ⟨hcont, hpos⟩ := hskips.contained hstands hrest
      exact ⟨hcont.of_drop (fun x => List.mem_cons) hadv (by simpa using hvalid), hpos⟩

/-- A call brings back no child. -/
theorem Contained.positions_subset {m : MergeIterator I} {r : Stepped (MergeIterator I)}
    (h : Contained m.held r) : r.2.positions ⊆ m.positions := by
  intro i hi
  obtain ⟨x, hx, rfl⟩ := List.mem_map.mp hi
  cases h with
  | ok h =>
    obtain ⟨w, hw, hindex, -⟩ := h.origin x hx
    exact hindex ▸ List.mem_map_of_mem hw
  | error _ _ _ h =>
    obtain ⟨w, hw, hindex, -⟩ := h.origin x hx
    exact hindex ▸ List.mem_map_of_mem hw

/-- Every child that the merge holds was reached from one of those passed in by calls that returned
`Ok`. -/
def HeldFrom (iters : List I) (m : MergeIterator I) : Prop :=
  ∀ w ∈ m.held, ∃ it, iters[w.index]? = some it ∧ Advanced it w.iter

theorem HeldFrom.next {iters : List I} {m : MergeIterator I} (h : HeldFrom iters m)
    {r : Stepped (MergeIterator I)} (hr : Contained m.held r) : HeldFrom iters r.2 := by
  intro x hx
  have horigin : ∃ w ∈ m.held, w.index = x.index ∧ Advanced w.iter x.iter := by
    cases hr with
    | ok hr =>
      obtain ⟨w, hw, hindex, -, hadv⟩ := hr.origin x hx
      exact ⟨w, hw, hindex, hadv⟩
    | error _ _ _ hr =>
      obtain ⟨w, hw, hindex, -, hadv⟩ := hr.origin x hx
      exact ⟨w, hw, hindex, hadv⟩
  obtain ⟨w, hw, hindex, hadv⟩ := horigin
  obtain ⟨it, hit, hadv'⟩ := h w hw
  exact ⟨it, hindex ▸ hit, hadv'.trans hadv⟩

/-- What holds of the children after any number of calls. -/
structure Sound (iters : List I) (m : MergeIterator I) : Prop where
  stands : m.Stands
  nodup : m.positions.Nodup
  heldFrom : HeldFrom iters m

theorem held_create (iters : List I) : (create iters).held.Perm
    ((iters.zipIdx.filter fun p => isValid p.1).map fun p => ⟨p.2, p.1⟩) := by
  rw [create]
  split
  · rename_i hpop
    rw [heapPop_eq_none_iff.mp hpop]
    exact .nil
  · rename_i w rest hpop
    exact (heapPop_spec hpop).1.symm

theorem sound_create {iters : List I} (h : ∀ it ∈ iters, Ordered it) : Sound iters (create iters) where
  stands := create_stands h
  nodup := by
    rw [positions, ((held_create iters).map _).nodup_iff, List.map_map]
    have hsub : ((iters.zipIdx.filter fun p => isValid p.1).map Prod.snd).Sublist
        (iters.zipIdx.map Prod.snd) := List.filter_sublist.map _
    rw [List.zipIdx_map_snd] at hsub
    exact hsub.nodup List.nodup_range'
  heldFrom w hw := by
    obtain ⟨⟨it, i⟩, hp, rfl⟩ := List.mem_map.mp ((held_create iters).mem_iff.mp hw)
    obtain ⟨hi, heq⟩ := List.mem_zipIdx' (List.mem_of_mem_filter hp)
    exact ⟨it, by rw [List.getElem?_eq_getElem hi, heq], .refl _⟩

theorem Sound.next {iters : List I} {m : MergeIterator I} (h : Sound iters m) :
    Sound iters (StorageIterator.next m).2 where
  stands := next_stands h.stands
  nodup := (next_contained h.stands h.nodup).2
  heldFrom := h.heldFrom.next (next_contained h.stands h.nodup).1

theorem Sound.nextN {iters : List I} {m : MergeIterator I} (h : Sound iters m) (n : ℕ) :
    Sound iters (nextN n m) := by
  induction n generalizing m with
  | zero => exact h
  | succ n ih => exact ih h.next

theorem Sound.positions_nextN_subset {iters : List I} {m : MergeIterator I} (h : Sound iters m) (n : ℕ) :
    (StorageIterator.nextN n m).positions ⊆ m.positions := by
  induction n generalizing m with
  | zero => exact fun _ hi => hi
  | succ n ih =>
    have hnext := (next_contained h.stands h.nodup).1.positions_subset
    exact fun i hi => hnext (ih h.next hi)

/-- What is handed out before an error belongs to the union. -/
theorem handed_prefix {iters : List I} {fulls : List (List Entry)} (h : List.Forall₂ Upto iters fulls)
    (hs : ∀ l ∈ fulls, SortedRun l) {out : List Entry} {m : MergeIterator I}
    (hout : Handed (create iters) out m) :
    (out ++ shown m) <+: unionAll fulls ∧ (isValid m = false → out = unionAll fulls) := by
  have hmerge := follows_merge (ListIterator.follows_upto (I := I))
  have hlike : Like (fun (it : I) (b : ListIterator) => Upto it b.entries) (create iters)
      (create (fulls.map ListIterator.mk)) := by
    refine create_like ListIterator.follows_upto ?_
    rw [List.forall₂_map_right_iff]
    exact h
  obtain ⟨m', hout', hrel⟩ := hmerge.handed hout
    ⟨hlike, create_stands (ordered_of_upto h hs), create_stands (ordered_lists hs)⟩
  obtain ⟨rest, hrest, hvisits⟩ := (lists_yield hs).visits.handed hout'
  obtain ⟨hshown, hnil⟩ := hvisits.shown_append
  rw [hmerge.shown hrel, hmerge.isValid hrel, hrest]
  refine ⟨List.prefix_append_right_inj out |>.mpr hshown, fun hvalid => ?_⟩
  rw [hnil hvalid, List.append_nil]

/-- Children that are alike until they fail make merges that cannot be told apart. -/
theorem nextN_unaffected {R : I → J → Prop} (hR : Alike R) {m : MergeIterator I} {m' : MergeIterator J}
    (h : Like R m m') (hm : m.Stands) (hm' : m'.Stands) (n : ℕ) :
    Like R (nextN n m) (nextN n m') ∧
      (StorageIterator.next (nextN n m)).1 = (StorageIterator.next (nextN n m')).1 := by
  induction n generalizing m m' with
  | zero => exact ⟨h, (next_like hR.toFollows h hm hm' (Or.inr hR)).1⟩
  | succ n ih =>
    exact ih (next_like hR.toFollows h hm hm' (Or.inr hR)).2 (next_stands hm) (next_stands hm')

/-- **The merge contains the errors of its children.** -/
theorem errors_contained {iters : List I} {fulls : List (List Entry)}
    (h : List.Forall₂ Upto iters fulls) (hs : ∀ l ∈ fulls, SortedRun l) :
    -- until the first error the output is a prefix of the union, and without one it is the union
    (∀ out m, Handed (create iters) out m →
      (out ++ shown m) <+: unionAll fulls ∧ (isValid m = false → out = unionAll fulls)) ∧
    -- an error is returned by the call it happens in, and the child that failed is not held again
    (∀ n, HeldFrom iters (nextN n (create iters)) ∧ (nextN n (create iters)).positions.Nodup ∧
      Contained (nextN n (create iters)).held (StorageIterator.next (nextN n (create iters))) ∧
      ∀ k, (nextN (n + k) (create iters)).positions ⊆ (nextN n (create iters)).positions) ∧
    -- what a child would show after its error makes no difference
    ∀ (J : Type) [StorageIterator J Key] (R : I → J → Prop), Alike R → ∀ iters',
      List.Forall₂ R iters iters' → ∀ n,
        isValid (nextN n (create iters)) = isValid (nextN n (create iters')) ∧
        key (nextN n (create iters)) = key (nextN n (create iters')) ∧
        value (nextN n (create iters)) = value (nextN n (create iters')) ∧
        (StorageIterator.next (nextN n (create iters))).1 =
          (StorageIterator.next (nextN n (create iters'))).1 := by
  have hord := ordered_of_upto h hs
  have hsound := sound_create hord
  refine ⟨fun out m hout => handed_prefix h hs hout, fun n => ?_, fun J _ R hR iters' hrel n => ?_⟩
  · have hn := hsound.nextN n
    refine ⟨hn.heldFrom, hn.nodup, (next_contained hn.stands hn.nodup).1, fun k => ?_⟩
    rw [Yields.nextN_add]
    exact hn.positions_nextN_subset k
  · have hord' : ∀ it ∈ iters', Ordered it := by
      intro b hb
      obtain ⟨a, ha, hab⟩ := exists_of_mem_right hrel hb
      obtain ⟨l, hl, hupto⟩ := hord a ha
      exact ⟨l, hl, hR.upto hupto hab⟩
    obtain ⟨hlike, hout⟩ := nextN_unaffected hR (create_like hR.toFollows hrel)
      (create_stands hord) (create_stands hord') n
    exact ⟨hlike.isValid_eq, hlike.key_eq hR.toFollows, hlike.value_eq hR.toFollows, hout⟩

/-- Three children at the key `a`, and the third fails while its duplicate is skipped. -/
theorem errors_contained_mock :
    let data : List (Bytes × Bytes) := [([97], [49]), ([98], [50])]
    let m := create [MockIterator.new data, MockIterator.new data, MockIterator.newWithError data 1]
    Contained m.held (StorageIterator.next m) ∧
      (StorageIterator.next m).1 = .error (.err "fake error!") ∧
      (StorageIterator.next m).2.positions = [1, 0] := by
  intro data m
  have h₀ := MockIterator.upto (MockIterator.new data)
  have h₂ := MockIterator.upto (MockIterator.newWithError data 1)
  exact ⟨((errors_contained (.cons h₀ (.cons h₀ (.cons h₂ .nil))) (by decide)).2.1 0).2.2.1,
    by decide +kernel, by decide +kernel⟩

end MergeIterator

end

end TinyLsm
