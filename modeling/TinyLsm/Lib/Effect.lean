import Mathlib

/-!
# Computations that may fail and keep their state

`Effect ε σ α` reads and changes a state `σ` and may fail with an `ε`.  Unlike a transaction, what
it changed before the failure stays changed.

`exec` runs a computation.  `exec_bind_eq_ok_iff` peels a successful computation apart, one step
at a time, and `exec_bind_of_ok`, `exec_bind_of_error` run one forwards.  `zoom` runs a computation
on a part of a larger state.

`Keeps R` is what a computation does to the state whether it fails or not; `R` is reflexive and
transitive, so that it goes through every step.
-/

/-- A computation on `σ` that may fail; the state at the point of failure is kept. -/
abbrev Effect (ε σ α : Type) := ExceptT ε (StateM σ) α

namespace Effect

variable {ε σ τ α β : Type}

/-- The outcome and the state left behind. -/
def exec (a : Effect ε σ α) (s : σ) : Except ε α × σ := a s

/-- A computation on a part of the state. -/
def zoom (get : σ → τ) (put : τ → σ → σ) (a : Effect ε τ α) : Effect ε σ α :=
  fun s => ((a.exec (get s)).1, put (a.exec (get s)).2 s)

@[simp] theorem exec_pure (a : α) (s : σ) : exec (pure a : Effect ε σ α) s = (.ok a, s) := rfl

@[simp] theorem exec_throw (e : ε) (s : σ) :
    exec (throw e : Effect ε σ α) s = (.error e, s) := rfl

@[simp] theorem exec_get (s : σ) : exec (get : Effect ε σ σ) s = (.ok s, s) := rfl

@[simp] theorem exec_modify (f : σ → σ) (s : σ) :
    exec (modify f : Effect ε σ Unit) s = (.ok (), f s) := rfl

@[simp] theorem exec_lift (o : Except ε α) (s : σ) : exec (liftM o : Effect ε σ α) s = (o, s) := by
  cases o <;> rfl

@[simp] theorem exec_zoom (get : σ → τ) (put : τ → σ → σ) (a : Effect ε τ α) (s : σ) :
    exec (zoom get put a) s = ((a.exec (get s)).1, put (a.exec (get s)).2 s) := rfl

/-- A computation ends somewhere. -/
theorem exists_exec {x : Effect ε σ α} {o : Except ε α} {s : σ} (h : (x.exec s).1 = o) :
    ∃ s', x.exec s = (o, s') := ⟨_, Prod.ext h rfl⟩

theorem exec_bind_of_ok {x : Effect ε σ α} {f : α → Effect ε σ β} {a : α} {s s' : σ}
    (h : x.exec s = (.ok a, s')) : (x >>= f).exec s = (f a).exec s' := by
  change exec (ExceptT.mk (StateT.bind x (ExceptT.bindCont f))) s = _
  simp only [exec, ExceptT.mk, StateT.bind, bind] at h ⊢
  rw [show x s = (Except.ok a, s') from h]
  rfl

theorem exec_bind_of_error {x : Effect ε σ α} {f : α → Effect ε σ β} {e : ε} {s s' : σ}
    (h : x.exec s = (.error e, s')) : (x >>= f).exec s = (.error e, s') := by
  change exec (ExceptT.mk (StateT.bind x (ExceptT.bindCont f))) s = _
  simp only [exec, ExceptT.mk, StateT.bind, bind] at h ⊢
  rw [show x s = (Except.error e, s') from h]
  rfl

/-- A computation that returns has passed every one of its steps. -/
theorem exec_bind_eq_ok_iff {x : Effect ε σ α} {f : α → Effect ε σ β} {b : β} {s s' : σ} :
    (x >>= f).exec s = (.ok b, s') ↔
      ∃ a s₁, x.exec s = (.ok a, s₁) ∧ (f a).exec s₁ = (.ok b, s') := by
  cases hx : x.exec s with
  | mk o s₁ =>
    cases o with
    | ok a =>
      rw [exec_bind_of_ok hx]
      constructor
      · intro h
        exact ⟨a, s₁, rfl, h⟩
      · rintro ⟨a', s₁', heq, h⟩
        cases heq
        exact h
    | error e =>
      rw [exec_bind_of_error hx]
      constructor
      · intro h
        cases h
      · rintro ⟨a, s₁', heq, -⟩
        cases heq

/-- A step that leads on unconditionally. -/
theorem exec_modify_bind (g : σ → σ) (f : Unit → Effect ε σ β) (s : σ) :
    ((modify g : Effect ε σ Unit) >>= f).exec s = (f ()).exec (g s) := rfl

theorem exec_get_bind (f : σ → Effect ε σ β) (s : σ) :
    ((get : Effect ε σ σ) >>= f).exec s = (f s).exec s := rfl

theorem exec_lift_bind (a : α) (f : α → Effect ε σ β) (s : σ) :
    ((liftM (.ok a : Except ε α) : Effect ε σ α) >>= f).exec s = (f a).exec s :=
  exec_bind_of_ok (exec_lift (.ok a) s)

/-! ## Whether it fails or not -/

/-- `R` relates the state before the computation to the state after it, whatever the outcome is. -/
def Keeps (R : σ → σ → Prop) (a : Effect ε σ α) : Prop := ∀ s, R s (a.exec s).2

section Keeps

variable {R : σ → σ → Prop}

theorem keeps_pure [Std.Refl R] (a : α) : Keeps R (pure a : Effect ε σ α) := fun s => Std.Refl.refl s

theorem keeps_throw [Std.Refl R] (e : ε) : Keeps R (throw e : Effect ε σ α) :=
  fun s => Std.Refl.refl s

theorem keeps_get [Std.Refl R] : Keeps R (get : Effect ε σ σ) := fun s => Std.Refl.refl s

theorem keeps_modify {f : σ → σ} (h : ∀ s, R s (f s)) : Keeps R (modify f : Effect ε σ Unit) := h

theorem keeps_lift [Std.Refl R] (o : Except ε α) : Keeps R (liftM o : Effect ε σ α) := by
  intro s
  rw [exec_lift]
  exact Std.Refl.refl s

theorem Keeps.bind [IsTrans σ R] {x : Effect ε σ α} {f : α → Effect ε σ β} (hx : Keeps R x)
    (hf : ∀ a, Keeps R (f a)) : Keeps R (x >>= f) := by
  intro s
  have hs := hx s
  cases hexec : x.exec s with
  | mk o s' =>
    rw [hexec] at hs
    cases o with
    | ok a =>
      rw [exec_bind_of_ok hexec]
      exact IsTrans.trans _ _ _ hs (hf a s')
    | error e =>
      rw [exec_bind_of_error hexec]
      exact hs

/-- A computation on a part of the state that `R` does not look at. -/
theorem keeps_zoom {get : σ → τ} {put : τ → σ → σ} (h : ∀ t s, R s (put t s)) (a : Effect ε τ α) :
    Keeps R (zoom get put a) := fun s => h _ s

end Keeps

end Effect
