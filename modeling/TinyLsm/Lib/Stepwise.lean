import TinyLsm.Lib.Effect

/-!
# Calls as sequences of atomic steps

`step p` is the atomic step of a call that stands at `p`.  It ends with the place where the call
stands next, or with `none` when the call has returned.

`drive` does one step after the other, and `trace` are the moments of that: where the call stands and
the state it then sees, before, between and after the steps.
-/

namespace Effect

variable {ε σ P : Type} {step : P → Effect ε σ (Option P)} {p p' : P} {s s' : σ} {n : ℕ}

/-- At most `n` steps from `p` on, without a break. -/
def drive (step : P → Effect ε σ (Option P)) : ℕ → P → Effect ε σ Unit
  | 0, _ => pure ()
  | n + 1, p => do
    match ← step p with
    | none => pure ()
    | some p' => drive step n p'

/-- The moments of `drive`; the place is `none` when the call has returned, also with an error. -/
def trace (step : P → Effect ε σ (Option P)) : ℕ → P → σ → List (Option P × σ)
  | 0, p, s => [(some p, s)]
  | n + 1, p, s => (some p, s) ::
    match (step p).exec s with
    | (.ok (some p'), s') => trace step n p' s'
    | (.ok none, s') => [(none, s')]
    | (.error _, s') => [(none, s')]

theorem drive_of_some (h : (step p).exec s = (.ok (some p'), s')) :
    (drive step (n + 1) p).exec s = (drive step n p').exec s' := by
  rw [drive, exec_bind_of_ok h]

theorem drive_of_none (h : (step p).exec s = (.ok none, s')) :
    (drive step (n + 1) p).exec s = (.ok (), s') := by
  rw [drive, exec_bind_of_ok h]
  rfl

theorem drive_of_error {e : ε} (h : (step p).exec s = (.error e, s')) :
    (drive step (n + 1) p).exec s = (.error e, s') := by
  rw [drive, exec_bind_of_error h]

theorem trace_of_some (h : (step p).exec s = (.ok (some p'), s')) :
    trace step (n + 1) p s = (some p, s) :: trace step n p' s' := by
  rw [trace, h]

theorem trace_of_none (h : (step p).exec s = (.ok none, s')) :
    trace step (n + 1) p s = [(some p, s), (none, s')] := by
  rw [trace, h]

theorem trace_of_error {e : ε} (h : (step p).exec s = (.error e, s')) :
    trace step (n + 1) p s = [(some p, s), (none, s')] := by
  rw [trace, h]

end Effect
