import Mathlib.Logic.Relation
import Mathlib.Tactic.Common

/-! Runs of a step relation under a measure that every step lowers: their number of steps
is bounded, and from every state one of them comes to its end. -/

set_option autoImplicit false

namespace Library

variable {σ : Type} {step : σ → σ → Prop} {remaining : σ → Nat}

/-- A run of so many steps. -/
inductive RunOf (step : σ → σ → Prop) : Nat → σ → σ → Prop
  | start (state : σ) : RunOf step 0 state state
  | step {count : Nat} {first middle last : σ} : RunOf step count first middle →
      step middle last → RunOf step (count + 1) first last

/-- Every step lowers the measure. -/
def Lowers (step : σ → σ → Prop) (remaining : σ → Nat) : Prop :=
  ∀ first last, step first last → remaining last < remaining first

theorem RunOf.bounded (lowers : Lowers step remaining) {count : Nat} {first last : σ}
    (run : RunOf step count first last) : count + remaining last ≤ remaining first := by
  induction run with
  | start => exact Nat.le_of_eq (Nat.zero_add _)
  | step _ next ih =>
      have less := lowers _ _ next
      omega

/-- From every state a run comes to a state without a next one. -/
theorem exists_end (lowers : Lowers step remaining) (first : σ) :
    ∃ last, Relation.ReflTransGen step first last ∧ ∀ next, ¬ step last next := by
  induction measured : remaining first using Nat.strongRecOn generalizing first with
  | ind value ih =>
      by_cases ended : ∃ next, step first next
      · obtain ⟨next, moved⟩ := ended
        have less := lowers _ _ moved
        obtain ⟨last, reaches, stops⟩ := ih (remaining next) (measured ▸ less) next rfl
        exact ⟨last, .head moved reaches, stops⟩
      · exact ⟨first, .refl, fun next moved => ended ⟨next, moved⟩⟩

end Library
