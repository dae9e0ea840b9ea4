/-!
The shortest decimal that reads back as a given double.

A double stands for every real number that rounds to it. Among the decimals in that interval, those
with the fewest digits are taken, and of these the nearest. All tests are exact comparisons of
natural numbers.
-/

namespace NestedPoly.Decimal

/-- A positive double, `mantissa * 2 ^ exponent`. Its neighbour below is at half the distance of the
one above when `narrow` is set, which is so at powers of two. -/
structure Dyadic where
  mantissa : Nat
  exponent : Int
  narrow : Bool
  deriving DecidableEq, Repr

structure Scientific where
  digits : Nat
  exponent : Int
  deriving DecidableEq, Repr

def exponentField (bits : UInt64) : Nat := (bits >>> 52 &&& 0x7ff).toNat

def fractionField (bits : UInt64) : Nat := (bits &&& 0xfffffffffffff).toNat

def Dyadic.ofBits (bits : UInt64) : Dyadic :=
  let field := exponentField bits
  let fraction := fractionField bits
  if field = 0 then ⟨fraction, -1074, false⟩
  else ⟨Nat.pow 2 52 + fraction, (field : Int) - 1075, fraction = 0 ∧ 1 < field⟩

def compareScaled (a : Nat) (s : Int) (b : Nat) (t : Int) : Ordering :=
  compare (a * Nat.pow 10 s.toNat * Nat.pow 2 (-t).toNat)
    (b * Nat.pow 2 t.toNat * Nat.pow 10 (-s).toNat)

/-- Whether the decimal rounds to the double: it lies between the midpoints to both neighbours, and
on a midpoint only if the mantissa is even, since ties go to the even mantissa. -/
def Dyadic.readsBack (x : Dyadic) (decimal : Scientific) : Bool :=
  let below := compareScaled decimal.digits decimal.exponent
    (4 * x.mantissa - (if x.narrow then 1 else 2)) (x.exponent - 2)
  let above := compareScaled decimal.digits decimal.exponent (4 * x.mantissa + 2) (x.exponent - 2)
  let even := x.mantissa % 2 = 0
  (below = .gt ∨ even ∧ below = .eq) ∧ (above = .lt ∨ even ∧ above = .eq)

/-- The power of ten of the leading digit. The estimate from the binary length is exact or one too
small. -/
def Dyadic.magnitude (x : Dyadic) : Int :=
  let estimate := ((x.mantissa.log2 : Int) + x.exponent) * 30103 / 100000
  if compareScaled 1 (estimate + 1) x.mantissa x.exponent = .gt then estimate else estimate + 1

def Dyadic.floorAt (x : Dyadic) (s : Int) : Nat :=
  x.mantissa * Nat.pow 2 x.exponent.toNat * Nat.pow 10 (-s).toNat /
    (Nat.pow 2 (-x.exponent).toNat * Nat.pow 10 s.toNat)

/-- The decimal on the grid of `10 ^ s` that reads back, if any: the nearer of the two that enclose
the double, the upper one at equal distance. -/
def Dyadic.onGrid (x : Dyadic) (s : Int) : Option Scientific :=
  let lower : Scientific := ⟨x.floorAt s, s⟩
  let upper : Scientific := ⟨x.floorAt s + 1, s⟩
  match x.readsBack lower, x.readsBack upper with
  | false, false => none
  | true, false => some lower
  | false, true => some upper
  | true, true =>
    some (if compareScaled (2 * lower.digits + 1) s (2 * x.mantissa) x.exponent = .gt then lower
      else upper)

def Dyadic.search (x : Dyadic) (leading : Int) (count : Nat) : Nat → Scientific
  | 0 => ⟨x.floorAt (leading + 1 - count), leading + 1 - count⟩
  | more + 1 =>
    match x.onGrid (leading + 1 - count) with
    | some decimal => decimal
    | none => x.search leading (count + 1) more

/-- Seventeen digits always suffice. -/
def Dyadic.shortest (x : Dyadic) : Scientific := x.search x.magnitude 1 17

def Scientific.normalize (decimal : Scientific) : Scientific :=
  if _ : decimal.digits ≠ 0 ∧ decimal.digits % 10 = 0 then
    Scientific.normalize ⟨decimal.digits / 10, decimal.exponent + 1⟩
  else decimal
termination_by decimal.digits
decreasing_by grind

end NestedPoly.Decimal
