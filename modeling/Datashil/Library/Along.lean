import Mathlib.Tactic.Common

/-! Runs of a machine: actions one after the other, each allowed in the state where it is
taken. -/

namespace Datashil.Library
variable {σ τ : Type} {step : σ → τ → σ} {allowed : σ → τ → Prop}

/-- Every action is allowed in the state where it is taken. What is allowed is said of the state
before, so a condition on a run does not speak of what its steps compute. -/
def Along (step : σ → τ → σ) (allowed : σ → τ → Prop) : σ → List τ → Prop
  | _, [] => True
  | state, action :: actions => allowed state action ∧ Along step allowed (step state action) actions

theorem along_append {state : σ} {first second : List τ} :
    Along step allowed state (first ++ second) ↔ Along step allowed state first ∧
      Along step allowed (first.foldl step state) second := by
  induction first generalizing state with
  | nil => simp [Along]
  | cons action first ih => simp [Along, ih, and_assoc]

/-- What every allowed action preserves holds at the end of a run. -/
theorem Along.invariant {invariant : σ → Prop}
    (preserved : ∀ state action, invariant state → allowed state action → invariant (step state action))
    {state : σ} (holds : invariant state) {actions : List τ}
    (along : Along step allowed state actions) : invariant (actions.foldl step state) := by
  induction actions generalizing state with
  | nil => exact holds
  | cons action actions ih =>
    obtain ⟨first, rest⟩ := along
    exact ih (preserved state action holds first) rest

/-- What an invariant allows is allowed all along. -/
theorem Along.imp {invariant : σ → Prop} {weaker : σ → τ → Prop}
    (preserved : ∀ state action, invariant state → allowed state action → invariant (step state action))
    (implies : ∀ state action, invariant state → allowed state action → weaker state action)
    {state : σ} (holds : invariant state) {actions : List τ}
    (along : Along step allowed state actions) : Along step weaker state actions := by
  induction actions generalizing state with
  | nil => trivial
  | cons action actions ih =>
    obtain ⟨first, rest⟩ := along
    exact ⟨implies state action holds first, ih (preserved state action holds first) rest⟩

end Datashil.Library
