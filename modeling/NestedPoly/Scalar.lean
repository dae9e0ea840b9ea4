/-!
Numbers that a polynomial is evaluated in, and their powers.

Evaluation is written once for every `Scalar`, so that statements about it may be made over exact
numbers while programs run it on floats.
-/

namespace NestedPoly

/-- Values with sums and products. A sum of several values starts from `emptySum`. -/
class Scalar (α : Type) extends Add α, Mul α, One α where
  emptySum : α

/-- Sums of floats start from negative zero, the one float that changes no other when added: from
positive zero, a sum of negative zeros would lose its sign. -/
instance : Scalar Float where
  toAdd := inferInstance
  toMul := inferInstance
  one := 1.0
  emptySum := -0.0

section
variable {α : Type}

/-- `result * base ^ exponent`, reading the binary digits of the exponent from the lowest. The base
is squared only while a digit remains. -/
def powerLoop [Mul α] (result base : α) (exponent : Nat) : α :=
  if _ : exponent = 0 then result
  else
    let half := exponent / 2
    powerLoop (if exponent % 2 = 1 then result * base else result)
      (if half = 0 then base else base * base) half
termination_by exponent
decreasing_by omega

def power [Mul α] [One α] (base : α) (exponent : Nat) : α :=
  match exponent with
  | 0 => 1
  | 1 => base
  | exponent => powerLoop 1 base exponent

end

end NestedPoly
