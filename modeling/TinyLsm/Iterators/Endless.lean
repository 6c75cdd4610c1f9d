import TinyLsm.Iterators.MergeIterator
import TinyLsm.Iterators.TwoMergeIterator
import TinyLsm.Iterators.ConcatIterator

/-!
# Iterators that do not come to an end

An iterator over a list of tables opens a table when its turn comes.  If one of the tables still to
come cannot be opened, the iterator stays valid until it gets there, and then `next` fails: no loop
sees its end.  The merges pass this on.

So a loop that has seen the end of a merge has opened every table under it.
-/

namespace TinyLsm

namespace StorageIterator

variable {I κ : Type} [StorageIterator I κ]

/-- While `R` holds the iterator is valid, and `next` fails or keeps `R`. -/
structure EndlessUnder (R : I → Prop) : Prop where
  valid : ∀ it, R it → isValid it = true
  next : ∀ it it', R it → next it = (.ok (), it') → R it'

/-- **No loop sees the end.** -/
theorem EndlessUnder.not_visits {R : I → Prop} (hR : EndlessUnder R) {it : I} {l : List (κ × Bytes)}
    (h : Visits it l) : ¬R it := by
  induction h with
  | nil hvalid =>
    intro hit
    rw [hR.valid _ hit] at hvalid
    cases hvalid
  | cons _ hnext _ ih => exact fun hit => ih (hR.next _ _ hit hnext)

end StorageIterator

open StorageIterator

/-! ## Tables one after the other -/

section

variable [Platform]

/-- No iterator can be put on the table. -/
def SsTable.Unopenable (t : SsTable) : Prop :=
  ∀ cur, SsTableIterator.createAndSeekToFirst t ≠ .ok cur

namespace SstConcatIterator

/-- A table still to come cannot be opened. -/
def Blocked (it : SstConcatIterator) : Prop :=
  it.current.isSome = true ∧ ∃ t ∈ it.sstables.drop it.nextSstIdx, t.Unopenable

/-- The loop of `move_until_valid` does not pass a table that cannot be opened. -/
theorem moveLoop_blocked {ssts : List SsTable} {it it' : SstConcatIterator}
    (hcur : it.current.isSome = true) (hdrop : it.sstables.drop it.nextSstIdx = ssts)
    (ht : ∃ t ∈ ssts, t.Unopenable) (h : moveLoop ssts it = (.ok (), it')) : it'.Blocked := by
  induction ssts generalizing it with
  | nil =>
    obtain ⟨t, ht, -⟩ := ht
    cases ht
  | cons t ssts ih =>
    rw [moveLoop] at h
    split at h
    · cases hopen : SsTableIterator.createAndSeekToFirst t with
      | error e =>
        rw [hopen] at h
        cases h
      | ok cur =>
        rw [hopen] at h
        -- the table was opened, so it is another one that cannot be
        refine ih rfl ?_ ?_ h
        · simp only
          rw [← List.drop_drop, hdrop]
          rfl
        · obtain ⟨u, hu, hunopenable⟩ := ht
          rcases List.mem_cons.mp hu with rfl | hu
          · exact absurd hopen (hunopenable cur)
          · exact ⟨u, hu, hunopenable⟩
    · cases h
      exact ⟨hcur, by rwa [hdrop]⟩

theorem moveUntilValid_blocked {it it' : SstConcatIterator} (h : it.Blocked)
    (hmove : moveUntilValid it = (.ok (), it')) : it'.Blocked := moveLoop_blocked h.1 rfl h.2 hmove

theorem endless_blocked : EndlessUnder Blocked where
  valid _ h := h.1
  next it it' h hnext := by
    change SstConcatIterator.next it = (.ok (), it') at hnext
    unfold SstConcatIterator.next at hnext
    obtain ⟨hcur, ht⟩ := h
    cases hcurrent : it.current with
    | none =>
      rw [hcurrent] at hcur
      cases hcur
    | some cur =>
      rw [hcurrent] at hnext
      simp only at hnext
      split at hnext
      · cases hnext
      · rename_i cur' hstep
        refine moveUntilValid_blocked ?_ hnext
        exact ⟨rfl, ht⟩

/-- From the start, over tables one of which cannot be opened. -/
theorem blocked_of_create {ssts : List SsTable} {it : SstConcatIterator}
    (ht : ∃ t ∈ ssts, t.Unopenable) (h : createAndSeekToFirst ssts = .ok it) : it.Blocked := by
  unfold createAndSeekToFirst at h
  split at h
  · cases ssts with
    | nil =>
      obtain ⟨t, ht, -⟩ := ht
      cases ht
    | cons t ssts =>
      rw [List.getElem?_cons_zero] at h
      obtain ⟨cur, hopen, h⟩ := Outcome.bind_eq_ok_iff.mp h
      have hrest : ∃ u ∈ ssts, u.Unopenable := by
        obtain ⟨u, hu, hunopenable⟩ := ht
        rcases List.mem_cons.mp hu with rfl | hu
        · exact absurd hopen (hunopenable cur)
        · exact ⟨u, hu, hunopenable⟩
      cases hmove : moveUntilValid ⟨some cur, 1, t :: ssts⟩ with
      | mk o it₁ =>
        rw [hmove] at h
        cases o with
        | error e => cases h
        | ok u =>
          cases h
          refine moveUntilValid_blocked ?_ hmove
          exact ⟨rfl, hrest⟩
  · cases h

end SstConcatIterator

end

/-! ## Merges -/

namespace TwoMergeIterator

variable {A B κ : Type} [LinearOrder κ] [StorageIterator A κ] [StorageIterator B κ] {R : A → Prop}
  {S : B → Prop}

theorem endless (hR : EndlessUnder R) (hS : EndlessUnder S) :
    EndlessUnder fun m : TwoMergeIterator A B => R m.a ∨ S m.b where
  valid m h := by
    change (isValid m.a || isValid m.b) = true
    rcases h with h | h
    · rw [hR.valid _ h, Bool.true_or]
    · rw [hS.valid _ h, Bool.or_true]
  next m m' h hnext := by
    have hA : ∀ {m'}, m.nextA = (.ok (), m') → R m'.a ∨ S m'.b := by
      intro m' hnext
      unfold nextA at hnext
      cases ha : StorageIterator.next m.a with
      | mk o a =>
        rw [ha] at hnext
        cases hnext
        exact h.imp_left fun h => hR.next _ _ h ha
    have hB : ∀ {m'}, m.nextB = (.ok (), m') → R m'.a ∨ S m'.b := by
      intro m' hnext
      unfold nextB at hnext
      cases hb : StorageIterator.next m.b with
      | mk o b =>
        rw [hb] at hnext
        cases hnext
        exact h.imp_right fun h => hS.next _ _ h hb
    change TwoMergeIterator.next m = (.ok (), m') at hnext
    unfold TwoMergeIterator.next at hnext
    split at hnext
    · exact hA hnext
    · split at hnext
      · exact hB hnext
      · split at hnext
        · exact hA hnext
        · split at hnext
          · exact hB hnext
          · -- equal keys: both are advanced
            cases ha : StorageIterator.next m.a with
            | mk oa a =>
              cases hb : StorageIterator.next m.b with
              | mk ob b =>
                rw [ha, hb] at hnext
                cases oa with
                | error e => cases hnext
                | ok u =>
                  cases hnext
                  exact h.imp (fun h => hR.next _ _ h ha) fun h => hS.next _ _ h hb

end TwoMergeIterator

namespace MergeIterator

variable {I : Type} [StorageIterator I Key] {R : I → Prop}

/-- Some child does not come to an end. -/
def Blocked (R : I → Prop) (m : MergeIterator I) : Prop :=
  m.current.isSome = true ∧ ∃ w ∈ m.current.toList ++ m.iters, R w.iter

/-- The loop of `next` keeps the child: it is valid when it is popped. -/
theorem skipLoop_blocked (hR : EndlessUnder R) {prevKey : Key} {n : ℕ} {heap : List (HeapWrapper I)}
    {m : MergeIterator I} (hheap : ∃ w ∈ heap, R w.iter)
    (h : skipLoop prevKey n heap = (.ok (), m)) : m.Blocked R := by
  -- What is left when one child is popped.
  have hpop : ∀ {heap rest : List (HeapWrapper I)} {w : HeapWrapper I},
      (∃ w ∈ heap, R w.iter) → heapPop heap = some (w, rest) →
        R w.iter ∨ ∃ w' ∈ rest, R w'.iter := by
    rintro heap rest w ⟨w', hw', hRw'⟩ hsome
    rcases List.mem_cons.mp ((heapPop_spec hsome).1.mem_iff.mp hw') with rfl | hw'
    · exact Or.inl hRw'
    · exact Or.inr ⟨w', hw', hRw'⟩
  have hfinal : ∀ {w : HeapWrapper I} {rest : List (HeapWrapper I)},
      R w.iter ∨ (∃ w' ∈ rest, R w'.iter) → Blocked R ⟨rest, some w⟩ := by
    rintro w rest (hw | ⟨w', hw', hRw'⟩)
    · exact ⟨rfl, w, List.mem_cons_self, hw⟩
    · exact ⟨rfl, w', List.mem_cons_of_mem _ hw', hRw'⟩
  induction n generalizing heap with
  | zero =>
    rw [skipLoop] at h
    split at h
    · rename_i hnone
      rw [heapPop_eq_none_iff] at hnone
      obtain ⟨w, hw, -⟩ := hheap
      rw [hnone] at hw
      cases hw
    · rename_i w rest hsome
      split at h
      · cases h
        exact hfinal (hpop hheap hsome)
      · cases h
  | succ n ih =>
    rw [skipLoop] at h
    split at h
    · rename_i hnone
      rw [heapPop_eq_none_iff] at hnone
      obtain ⟨w, hw, -⟩ := hheap
      rw [hnone] at hw
      cases hw
    · rename_i w rest hsome
      have hcase := hpop hheap hsome
      split at h
      · split at h
        · rename_i it hnext
          split at h
          · refine ih ?_ h
            rcases hcase with hw | ⟨w', hw', hRw'⟩
            · exact ⟨⟨w.index, it⟩, List.mem_cons_self, hR.next _ _ hw hnext⟩
            · exact ⟨w', List.mem_cons_of_mem _ hw', hRw'⟩
          · rename_i hinvalid
            refine ih (hcase.resolve_left fun hw => hinvalid ?_) h
            exact hR.valid _ (hR.next _ _ hw hnext)
        · cases h
      · split at h
        · cases h
          exact hfinal hcase
        · rename_i hinvalid
          exact ih (hcase.resolve_left fun hw => hinvalid (hR.valid _ hw)) h

theorem endless (hR : EndlessUnder R) : EndlessUnder (Blocked R) where
  valid _ h := h.1
  next m m' h hnext := by
    change MergeIterator.next m = (.ok (), m') at hnext
    unfold MergeIterator.next at hnext
    obtain ⟨hcur, w, hw, hRw⟩ := h
    cases hcurrent : m.current with
    | none =>
      rw [hcurrent] at hcur
      cases hcur
    | some curr =>
      rw [hcurrent] at hnext hw
      simp only at hnext
      split at hnext
      · rename_i it hstep
        refine skipLoop_blocked hR ?_ hnext
        rcases List.mem_cons.mp hw with rfl | hw
        · have hRit := hR.next _ _ hRw hstep
          rw [if_pos (hR.valid _ hRit)]
          exact ⟨_, List.mem_cons_self, hRit⟩
        · refine ⟨w, ?_, hRw⟩
          split
          · exact List.mem_cons_of_mem _ hw
          · exact hw
      · cases hnext

theorem blocked_of_create (hR : EndlessUnder R) {iters : List I} (h : ∃ it ∈ iters, R it) :
    (create iters).Blocked R := by
  obtain ⟨it, hit, hRit⟩ := h
  obtain ⟨i, hi, rfl⟩ := List.mem_iff_getElem.mp hit
  have hmem : (⟨i, iters[i]⟩ : HeapWrapper I) ∈
      (iters.zipIdx.filter fun p => isValid p.1).map fun p => ⟨p.2, p.1⟩ := by
    refine List.mem_map.mpr ⟨(iters[i], i), List.mem_filter.mpr ⟨?_, hR.valid _ hRit⟩, rfl⟩
    exact List.mem_zipIdx_iff_getElem?.mpr (List.getElem?_eq_getElem hi)
  unfold create
  simp only
  split
  · rename_i hnone
    rw [heapPop_eq_none_iff] at hnone
    rw [hnone] at hmem
    cases hmem
  · rename_i w rest hsome
    exact ⟨rfl, ⟨i, iters[i]⟩, (heapPop_spec hsome).1.mem_iff.mp hmem, hRit⟩

end MergeIterator

end TinyLsm
