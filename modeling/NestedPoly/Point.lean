import NestedPoly.Scalar
import NestedPoly.Cost
import NestedPoly.Fault

namespace NestedPoly

variable {α : Type}

def checkLength (dim : Nat) (point : Array α) : Except Fault Unit :=
  if point.size = dim then .ok () else .error (.wrongDimension dim point.size)

def scaleByPowers [Scalar α] (point : Array α) (start : α) (powers : List (Nat × Nat)) :
    Except Fault α :=
  powers.foldlM (fun value (var, exponent) => do
    let coordinate ← fetch point var
    return value * power coordinate exponent) start

class Evaluable (π : Type) (α : outParam Type) where
  dim : π → Nat
  evalRaw : π → Array α → Except Fault α
  cost : π → Cost

def evalStrict {π : Type} [Evaluable π α] (poly : π) (point : Array α) : Except Fault α := do
  checkLength (Evaluable.dim poly) point
  Evaluable.evalRaw poly point

end NestedPoly
