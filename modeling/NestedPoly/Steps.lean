import NestedPoly.Fault

namespace NestedPoly

variable {σ : Type}

/-- Does one step after the other while there is one, and stops at the first fault. -/
def runSteps (step : σ → Option (σ × Option Fault)) : Nat → σ → σ × Option Fault
  | 0, state => (state, none)
  | fuel + 1, state =>
    match step state with
    | none => (state, none)
    | some (next, none) => runSteps step fuel next
    | some (next, some fault) => (next, some fault)

end NestedPoly
