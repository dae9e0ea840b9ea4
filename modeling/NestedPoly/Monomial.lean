import NestedPoly.Point

namespace NestedPoly

/-- Writes the powers after `out`, each set off by a blank unless one stands there already.
Variables are numbered from one. -/
def appendPowers (out : String) (powers : List (Nat × Nat)) : String :=
  powers.foldl (fun out (var, exponent) =>
    let separated := if out.isEmpty ∨ out.toList.getLast? = some ' ' then out else out ++ " "
    separated ++ s!"x_{var + 1}^{exponent}") out

def nonzeroPowers (exponents : List Nat) : List (Nat × Nat) :=
  exponents.zipIdx.filterMap fun (exponent, var) =>
    if 0 < exponent then some (var, exponent) else none

structure Monomial (α : Type) where
  coefficient : α
  exponents : List Nat
  deriving BEq, DecidableEq, Repr

namespace Monomial

variable {α : Type}

def dim (m : Monomial α) : Nat := m.exponents.length

/-- The exponent of a variable, zero for one that the monomial does not have. -/
def exponent (m : Monomial α) (var : Nat) : Nat := m.exponents.getD var 0

def degree (m : Monomial α) : Nat := sumOf m.exponents

def powers (m : Monomial α) : List (Nat × Nat) := nonzeroPowers m.exponents

/-- The value at a point. Coordinates of variables that do not occur are not read. -/
def eval [Scalar α] (m : Monomial α) (point : Array α) : Except Fault α :=
  scaleByPowers point m.coefficient m.powers

def text (scalarText : α → String) (m : Monomial α) : String :=
  appendPowers (scalarText m.coefficient) m.powers

end Monomial

end NestedPoly
