import NestedPoly.Arena.Text
import NestedPoly.Event

/-!
Nested forms as trees.

The meaning of an arena is told by the tree that its nodes form. What is asked of an arena in one
pass is here defined by recursion: value, cost, depth, text, and the monomials that a form expands
to.
-/

namespace NestedPoly

def powerText (power : Nat × Nat) : String := s!"x_{power.1 + 1}^{power.2}"

inductive Nest (α : Type) where
  | leaf (coefficient : α) (powers : List (Nat × Nat))
  /-- `x_var ^ power * factored`. -/
  | scaled (var power : Nat) (factored : Nest α)
  /-- `x_var ^ power * factored + rest`. -/
  | joined (var power : Nat) (factored rest : Nest α)
  deriving DecidableEq, Repr

namespace Nest

variable {α : Type}

def eval [Scalar α] (point : Array α) : Nest α → Except Fault α
  | leaf coefficient powers => scaleByPowers point coefficient powers
  | scaled var power factored => do
    let inner ← factored.eval point
    return inner * NestedPoly.power (← fetch point var) power
  | joined var power factored rest => do
    let inner ← factored.eval point
    let outer ← rest.eval point
    return inner * NestedPoly.power (← fetch point var) power + outer

def cost : Nest α → Cost
  | leaf _ powers => (powers.map fun (_, exponent) => Cost.scaling exponent).sum
  | scaled _ power factored => Cost.scaling power + factored.cost
  | joined _ power factored rest =>
    Cost.scaling power + Cost.joining + factored.cost + rest.cost

def countLeaves : Nest α → Nat
  | leaf .. => 1
  | scaled _ _ factored => factored.countLeaves
  | joined _ _ factored rest => factored.countLeaves + rest.countLeaves

def countNodes : Nest α → Nat
  | leaf .. => 1
  | scaled _ _ factored => factored.countNodes + 1
  | joined _ _ factored rest => factored.countNodes + rest.countNodes + 1

def depth : Nest α → Nat
  | leaf .. => 1
  | scaled _ _ factored => 1 + factored.depth
  | joined _ _ factored rest => 1 + max factored.depth rest.depth

/-- The variables that are named, from the root on. A variable stands as often as it is named. -/
def namedVariables : Nest α → List Nat
  | leaf _ powers => powers.map Prod.fst
  | scaled var _ factored => var :: factored.namedVariables
  | joined var _ factored rest => var :: (factored.namedVariables ++ rest.namedVariables)

/-- The form as it is printed: powers stand before the brackets around what they multiply. -/
def text (scalarText : α → String) : Nest α → String
  | leaf coefficient [] => scalarText coefficient
  | leaf coefficient powers =>
    String.intercalate " " (powers.map powerText) ++ " [ " ++ scalarText coefficient ++ " ]"
  | scaled var power factored =>
    powerText (var, power) ++ " [ " ++ factored.text scalarText ++ " ]"
  | joined var power factored rest =>
    powerText (var, power) ++ " [ " ++ factored.text scalarText ++ " ]" ++ " + " ++
      rest.text scalarText

/-- The terms that the form adds up to: each coefficient with all powers on the way to its leaf. -/
def expand : Nest α → List (α × List (Nat × Nat))
  | leaf coefficient powers => [(coefficient, powers)]
  | scaled var power factored =>
    factored.expand.map fun (coefficient, powers) => (coefficient, (var, power) :: powers)
  | joined var power factored rest =>
    (factored.expand.map fun (coefficient, powers) => (coefficient, (var, power) :: powers)) ++
      rest.expand

/-- The splits that lead to the form, from the root on, the factored branch before the rest. -/
def splits : Nest α → List Split
  | leaf .. => []
  | scaled var power factored => ⟨var, power, factored.countLeaves, 0⟩ :: factored.splits
  | joined var power factored rest =>
    ⟨var, power, factored.countLeaves, rest.countLeaves⟩ :: (factored.splits ++ rest.splits)

end Nest

def totalExponent (powers : List (Nat × Nat)) (var : Nat) : Nat :=
  sumOf (powers.filterMap fun (other, exponent) => if other = var then some exponent else none)

def exponentVector (dim : Nat) (powers : List (Nat × Nat)) : List Nat :=
  (List.range dim).map (totalExponent powers)

def Nest.monomials {α : Type} (dim : Nat) (nest : Nest α) : List (Monomial α) :=
  nest.expand.map fun (coefficient, powers) => ⟨coefficient, exponentVector dim powers⟩

end NestedPoly
