import Mathlib.Data.List.AList
import TinyLsm.Lib.Effect

/-!
# Memo tables

A computation for a key is looked up first, and remembered when it was made.  A table is `Sound` for
a relation `Value` between keys and values when everything that it remembers is a value of its key.
Remembering a value and forgetting anything keep it sound, and through a sound table a computation
has the result that it has without (`exec_through`), as long as `Value` has no other value for the key.
-/

namespace TinyLsm

/-- Values that were computed before, by their keys. -/
abbrev Memo (κ ν : Type) := AList fun _ : κ => ν

namespace Memo

variable {κ ν ε : Type} [DecidableEq κ] {Value Value' : κ → ν → Prop} {m m' : Memo κ ν} {k : κ} {v : ν}

/-- Everything remembered is a value of its key. -/
def Sound (Value : κ → ν → Prop) (m : Memo κ ν) : Prop := ∀ k v, m.lookup k = some v → Value k v

/-- What the first table remembers, the second one does. -/
def Within (m m' : Memo κ ν) : Prop := ∀ k v, m.lookup k = some v → m'.lookup k = some v

theorem sound_empty : Sound Value (∅ : Memo κ ν) := by
  intro k v h
  rw [AList.lookup_empty] at h
  cases h

theorem Sound.within (h : Sound Value m) (hm : m'.Within m) : Sound Value m' := fun k v hv =>
  h k v (hm k v hv)

theorem Sound.mono (h : Sound Value m) (hvalue : ∀ k v, Value k v → Value' k v) : Sound Value' m :=
  fun k v hv => hvalue k v (h k v hv)

theorem Sound.insert (h : Sound Value m) (hv : Value k v) : Sound Value (m.insert k v) := by
  intro k' v' h'
  by_cases hk : k' = k
  · subst hk
    rw [AList.lookup_insert] at h'
    rwa [← Option.some.inj h']
  · rw [AList.lookup_insert_ne hk] at h'
    exact h k' v' h'

/-- The computation through the table. -/
def through (k : κ) (compute : Except ε ν) : Effect ε (Memo κ ν) ν := do
  match (← get).lookup k with
  | some v => pure v
  | none =>
    let v ← compute
    modify fun m => m.insert k v
    pure v

/-- **Through a sound table a computation has its own result**, and leaves the table sound. -/
theorem exec_through {compute : Except ε ν} (h : Sound Value m)
    (hknown : ∀ v, Value k v → compute = .ok v) (hvalue : ∀ v, compute = .ok v → Value k v) :
    ∃ m', (through k compute).exec m = (compute, m') ∧ Sound Value m' := by
  unfold through
  rw [Effect.exec_get_bind]
  cases hm : m.lookup k with
  | some v =>
    rw [hknown v (h k v hm)]
    exact ⟨m, rfl, h⟩
  | none =>
    cases compute with
    | error e => exact ⟨m, Effect.exec_bind_of_error (Effect.exec_lift _ _), h⟩
    | ok v => exact ⟨m.insert k v, rfl, h.insert (hvalue v rfl)⟩

end Memo

end TinyLsm
