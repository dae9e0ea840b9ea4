import Mathlib
import NestedPoly.Steps

namespace NestedPoly

variable {σ τ : Type} {step : σ → Option (σ × Option Fault)} {start state next : σ}

def Passes (step : σ → Option (σ × Option Fault)) : σ → σ → Prop :=
  Relation.ReflTransGen fun state next => step state = some (next, none)

/-- How work ends that may go on for as long as it likes: no step is left, or the next one fails. -/
inductive EndsWith (step : σ → Option (σ × Option Fault)) (start : σ) : σ × Option Fault → Prop where
  | done {state : σ} (reached : Passes step start state) (idle : step state = none) :
      EndsWith step start (state, none)
  | failed {state next : σ} {fault : Fault} (reached : Passes step start state)
      (refused : step state = some (next, some fault)) : EndsWith step start (next, some fault)

theorem runSteps_idle (fuel : Nat) (idle : step state = none) :
    runSteps step fuel state = (state, none) := by
  cases fuel with
  | zero => rfl
  | succ fuel => simp only [runSteps, idle]

theorem runSteps_succ (fuel : Nat) (taken : step state = some (next, none)) :
    runSteps step (fuel + 1) state = runSteps step fuel next := by
  simp only [runSteps, taken]

theorem runSteps_failed {fault : Fault} (fuel : Nat)
    (refused : step state = some (next, some fault)) :
    runSteps step (fuel + 1) state = (next, some fault) := by
  simp only [runSteps, refused]

theorem invariant_of_passes (holds : σ → Prop) (initial : holds start)
    (kept : ∀ {state next : σ}, step state = some (next, none) → holds state → holds next)
    (reached : Passes step start state) : holds state := by
  induction reached with
  | refl => exact initial
  | tail _ taken ih => exact kept taken ih

theorem endsWith_of_step {result : σ × Option Fault} (taken : step start = some (next, none))
    (ends : EndsWith step next result) : EndsWith step start result := by
  cases ends with
  | done reached idle => exact EndsWith.done (Relation.ReflTransGen.head taken reached) idle
  | failed reached refused =>
      exact EndsWith.failed (Relation.ReflTransGen.head taken reached) refused

theorem endsWith_runSteps (fuel : Nat) (start : σ)
    (stopped : (runSteps step fuel start).2 = none → step (runSteps step fuel start).1 = none) :
    EndsWith step start (runSteps step fuel start) := by
  induction fuel generalizing start with
  | zero => exact EndsWith.done Relation.ReflTransGen.refl (stopped rfl)
  | succ fuel ih =>
      rcases taken : step start with _ | ⟨next, _ | fault⟩
      · rw [runSteps_idle _ taken]
        exact EndsWith.done Relation.ReflTransGen.refl taken
      · rw [runSteps_succ fuel taken] at stopped ⊢
        exact endsWith_of_step taken (ih next stopped)
      · rw [runSteps_failed fuel taken]
        exact EndsWith.failed Relation.ReflTransGen.refl taken

section
variable {otherStep : τ → Option (τ × Option Fault)} {view : σ → τ} {holds : σ → Prop}
  (alike : ∀ state, holds state → otherStep (view state) = (step state).map (Prod.map view id))
  (kept : ∀ {state next : σ}, step state = some (next, none) → holds state → holds next)
include alike kept

/-- Where single steps are alike, so are runs. -/
theorem runSteps_view (fuel : Nat) (initial : holds start) :
    runSteps otherStep fuel (view start) = Prod.map view id (runSteps step fuel start) := by
  induction fuel generalizing start with
  | zero => rfl
  | succ fuel ih =>
      have one := alike start initial
      rcases taken : step start with _ | ⟨next, _ | fault⟩
      · rw [taken] at one
        rw [runSteps_idle _ one, runSteps_idle _ taken]
        rfl
      · rw [taken] at one
        rw [runSteps_succ fuel one, runSteps_succ fuel taken]
        exact ih (kept taken initial)
      · rw [taken] at one
        rw [runSteps_failed fuel one, runSteps_failed fuel taken]
        rfl

theorem passes_view (initial : holds start) (reached : Passes step start state) :
    Passes otherStep (view start) (view state) ∧ holds state := by
  induction reached with
  | refl => exact ⟨Relation.ReflTransGen.refl, initial⟩
  | tail _ taken ih =>
      obtain ⟨passed, here⟩ := ih
      have one := alike _ here
      rw [taken] at one
      exact ⟨Relation.ReflTransGen.tail passed one, kept taken here⟩

end

end NestedPoly
