import Mathlib.Data.List.Basic
import Mathlib.Data.DFinsupp.WellFounded

/-!
# Runs of a step relation

`Run step s as t`: the steps labelled `as` lead from `s` to `t`.  A run grows at its end, so an
invariant is proved by looking at the last step.  `Run.budget` bounds the length of a run, and
`Run.forall_states_iff` says when all its states have a property.

`execAll` plays a list of labels with a step function, which is how runs on concrete inputs are
built.

`LexFall` is the measure for a step that makes one entry of a list smaller and may do anything to the
later ones: `not_forall_lexFall`.
-/

namespace TinyLsm

variable {σ α : Type*} {step step' : σ → α → σ → Prop}

/-- The runs of a step relation from `s`, with the labels of their steps. -/
inductive Run (step : σ → α → σ → Prop) (s : σ) : List α → σ → Prop where
  | nil : Run step s [] s
  | snoc {as : List α} {a : α} {t u : σ} (hrun : Run step s as t) (hstep : step t a u) :
      Run step s (as ++ [a]) u

namespace Run

variable {s t u : σ} {as bs : List α}

/-- **The invariant rule.** -/
theorem invariant (I : σ → Prop) (hstep : ∀ t a u, I t → step t a u → I u) (h : Run step s as t)
    (h₀ : I s) : I t := by
  induction h with
  | nil => exact h₀
  | snoc _ hs ih => exact hstep _ _ _ ih hs

/-- The invariant rule, for an invariant that remembers the steps. -/
theorem invariant_of_steps (I : List α → σ → Prop) (h₀ : I [] s)
    (hstep : ∀ as t a u, I as t → step t a u → I (as ++ [a]) u) (h : Run step s as t) : I as t := by
  induction h with
  | nil => exact h₀
  | snoc _ hs ih => exact hstep _ _ _ _ ih hs

/-- **The budget rule**: a run whose steps all spend something is no longer than what it starts
with. -/
theorem budget (I : ℕ → σ → Prop)
    (hstep : ∀ n t a u, I n t → step t a u → ∃ m < n, I m u) (h : Run step s as t) {n : ℕ}
    (h₀ : I n s) : ∃ m, as.length + m ≤ n ∧ I m t := by
  refine h.invariant_of_steps (fun as t => ∃ m, as.length + m ≤ n ∧ I m t) ?_ ?_
  · exact ⟨n, by simp, h₀⟩
  · rintro as t a u ⟨m, hm, ht⟩ hs
    obtain ⟨m', hlt, hu⟩ := hstep m t a u ht hs
    refine ⟨m', ?_, hu⟩
    rw [List.length_append, List.length_singleton]
    omega

theorem mono (hstep : ∀ t a u, step t a u → step' t a u) (h : Run step s as t) :
    Run step' s as t := by
  induction h with
  | nil => exact .nil
  | snoc _ hs ih => exact .snoc ih (hstep _ _ _ hs)

/-- The step relation may be changed at the labels that occur. -/
theorem mono_of_mem (hstep : ∀ a ∈ as, ∀ t u, step t a u → step' t a u) (h : Run step s as t) :
    Run step' s as t := by
  induction h with
  | nil => exact .nil
  | snoc _ hs ih =>
    exact .snoc (ih fun a ha => hstep a (List.mem_append_left _ ha))
      (hstep _ (List.mem_append_right _ (List.mem_singleton_self _)) _ _ hs)

theorem append (h : Run step s as t) (h' : Run step t bs u) : Run step s (as ++ bs) u := by
  induction h' with
  | nil => rwa [List.append_nil]
  | snoc _ hs ih =>
    rw [← List.append_assoc]
    exact .snoc ih hs

theorem eq_of_nil (h : Run step s [] t) : t = s := by
  generalize hl : ([] : List α) = l at h
  cases h with
  | nil => rfl
  | snoc _ _ => exact absurd hl.symm (List.append_ne_nil_of_right_ne_nil _ (List.cons_ne_nil _ _))

/-- A run that is not empty has a last step. -/
theorem exists_last {a : α} (h : Run step s (as ++ [a]) u) : ∃ t, Run step s as t ∧ step t a u := by
  generalize hl : as ++ [a] = l at h
  cases h with
  | nil => exact absurd hl (List.append_ne_nil_of_right_ne_nil _ (List.cons_ne_nil _ _))
  | snoc hrun hs =>
    obtain ⟨rfl, hlast⟩ := List.append_inj' hl rfl
    obtain rfl := List.cons.inj hlast |>.1
    exact ⟨_, hrun, hs⟩

/-- A run passes through a state after each of its steps. -/
theorem exists_append (h : Run step s (as ++ bs) u) : ∃ t, Run step s as t ∧ Run step t bs u := by
  induction bs using List.reverseRecOn generalizing u with
  | nil => exact ⟨u, by rwa [List.append_nil] at h, .nil⟩
  | append_singleton bs a ih =>
    rw [← List.append_assoc] at h
    obtain ⟨v, hv, hlast⟩ := exists_last h
    obtain ⟨t, ht, htv⟩ := ih hv
    exact ⟨t, ht, htv.snoc hlast⟩

/-- **The projection rule**: what a run does to a part of the state is a run of that part, if each step
is a step of it or leaves it alone. -/
theorem project {σ' α' : Type*} {part : σ' → α' → σ' → Prop} (p : σ → σ') (f : α → Option α')
    (hsome : ∀ t a b u, f a = some b → step t a u → part (p t) b (p u))
    (hnone : ∀ t a u, f a = none → step t a u → p u = p t) (h : Run step s as t) :
    Run part (p s) (as.filterMap f) (p t) := by
  induction h with
  | nil => exact .nil
  | @snoc as a t u _ hs ih =>
    rw [List.filterMap_append]
    cases hf : f a with
    | none => simpa [hf, hnone t a u hf hs] using ih
    | some b => simpa [hf] using ih.snoc (hsome t a b u hf hs)

/-- Deterministic steps lead to one state. -/
theorem unique (hdet : ∀ s a t t', step s a t → step s a t' → t = t') (h : Run step s as t)
    (h' : Run step s as u) : t = u := by
  induction h generalizing u with
  | nil => exact h'.eq_of_nil.symm
  | snoc _ hs ih =>
    obtain ⟨v, hv, hlast⟩ := exists_last h'
    obtain rfl := ih hv
    exact hdet _ _ _ _ hs hlast

/-- **The states of a run** all have a property exactly when the steps meet the condition under which one
step keeps it.  `I` is what the step needs to know besides. -/
theorem forall_states_iff (I P : σ → Prop) (C : σ → α → Prop)
    (hdet : ∀ s a t t', step s a t → step s a t' → t = t')
    (hstep : ∀ t a u, I t → P t → step t a u → (P u ↔ C t a) ∧ (P u → I u)) (hI : I s) (hP : P s)
    (h : Run step s as t) : (∀ bs cs u, as = bs ++ cs → Run step s bs u → P u) ↔
      Run (fun t a u => C t a ∧ step t a u) s as t := by
  have hkept : ∀ {bs u}, Run (fun t a u => C t a ∧ step t a u) s bs u → I u ∧ P u := by
    refine fun hrun => hrun.invariant (fun u => I u ∧ P u) ?_ ⟨hI, hP⟩
    rintro t a u ⟨hIt, hPt⟩ ⟨hC, hs⟩
    obtain ⟨hiff, hnext⟩ := hstep t a u hIt hPt hs
    exact ⟨hnext (hiff.mpr hC), hiff.mpr hC⟩
  constructor
  · intro hall
    induction h with
    | nil => exact .nil
    | @snoc as a t u hrun hs ih =>
      have hbefore := ih fun bs cs u hsplit => hall bs (cs ++ [a]) u (by rw [hsplit, List.append_assoc])
      obtain ⟨hIt, hPt⟩ := hkept hbefore
      have hu := hall (as ++ [a]) [] u (List.append_nil _).symm (hrun.snoc hs)
      exact hbefore.snoc ⟨(hstep t a u hIt hPt hs).1.mp hu, hs⟩
  · rintro hC bs cs u rfl hu
    obtain ⟨u', hu', -⟩ := hC.exists_append
    have hplain : Run step s bs u' := hu'.mono fun _ _ _ h => h.2
    obtain rfl := hplain.unique hdet hu
    exact (hkept hu').2

theorem single {a : α} (h : step s a t) : Run step s [a] t := .snoc .nil h

end Run

/-- The state after some steps, if there is one. -/
def execAll (f : σ → α → Option σ) : List α → σ → Option σ
  | [], s => some s
  | a :: as, s =>
    match f s a with
    | some t => execAll f as t
    | none => none

theorem run_of_execAll {f : σ → α → Option σ} (hf : ∀ s a t, f s a = some t → step s a t)
    {as : List α} {s t : σ} (h : execAll f as s = some t) : Run step s as t := by
  induction as generalizing s with
  | nil =>
    cases h
    exact .nil
  | cons a as ih =>
    rw [execAll] at h
    split at h
    · rename_i u hu
      exact (Run.single (hf s a u hu)).append (ih h)
    · cases h

/-- The run of a function. -/
theorem run_foldl (f : σ → α → σ) (s : σ) (as : List α) :
    Run (fun s a t => f s a = t) s as (as.foldl f s) := by
  induction as generalizing s with
  | nil => exact .nil
  | cons a as ih => exact (Run.single rfl).append (ih (f s a))

/-! ## Lexicographic measures -/

/-- One entry is smaller and those before it are the same. -/
def LexFall {α : Type*} [LT α] (l l' : List α) : Prop :=
  l'.length = l.length ∧ ∃ i : ℕ, (∀ j < i, l'[j]? = l[j]?) ∧
    ∃ a a', l[i]? = some a ∧ l'[i]? = some a' ∧ a' < a

/-- **Lists cannot fall for ever.** -/
theorem not_forall_lexFall {α : Type*} [LT α] [WellFoundedLT α] (run : ℕ → List α) :
    ¬ ∀ n, LexFall (run n) (run (n + 1)) := by
  intro h
  have hlength : ∀ n, (run n).length = (run 0).length := by
    intro n
    induction n with
    | zero => rfl
    | succ n ih => exact (h n).1.trans ih
  let vector : ℕ → Lex (Fin (run 0).length → α) := fun n =>
    toLex fun i => (run n).get (i.cast (hlength n).symm)
  obtain ⟨n, hn⟩ := WellFounded.not_rel_apply_succ (r := (· < ·)) vector
  obtain ⟨-, i, hsame, a, a', ha, ha', hlt⟩ := h n
  obtain ⟨hi, rfl⟩ := List.getElem?_eq_some_iff.mp ha
  obtain ⟨hi', rfl⟩ := List.getElem?_eq_some_iff.mp ha'
  refine hn ⟨⟨i, hlength n ▸ hi⟩, fun j hj => ?_, hlt⟩
  have hj' := hsame j hj
  have hbound : ∀ m, (j : ℕ) < (run m).length := fun m => j.isLt.trans_eq (hlength m).symm
  rw [List.getElem?_eq_getElem (hbound (n + 1)), List.getElem?_eq_getElem (hbound n)] at hj'
  exact Option.some.inj hj'

end TinyLsm
