import NestedPoly.Decimal.Shortest

/-!
How floats are printed.

The digits are the shortest that read back. From `0.0001` up to below `10 ^ 16` they are laid out in
positional notation with at least one digit after the point, elsewhere with a power of ten.
-/

namespace NestedPoly.Decimal

def leastPositional : Int := -4

def firstScientific : Int := 16

def positional (digits : String) (leading : Int) : String :=
  if leading < 0 then
    "0." ++ String.ofList (List.replicate (-leading - 1).toNat '0') ++ digits
  else
    let before := leading.toNat + 1
    let padded := digits.toList ++ List.replicate (before - digits.length) '0'
    let after := padded.drop before
    String.ofList (padded.take before) ++ "." ++ (if after.isEmpty then "0" else String.ofList after)

def scientific (digits : String) (leading : Int) : String :=
  let fraction := digits.toList.drop 1
  String.ofList (digits.toList.take 1) ++ (if fraction.isEmpty then "" else "." ++ String.ofList fraction) ++
    "e" ++ toString leading

def Scientific.text (decimal : Scientific) : String :=
  let digits := toString decimal.digits
  let leading := decimal.exponent + digits.length - 1
  if leastPositional ≤ leading ∧ leading < firstScientific then positional digits leading
  else scientific digits leading

/-- The text of a float. Zero keeps its sign; there is one text for all values that are not numbers. -/
def text (x : Float) : String :=
  let bits := x.toBits
  let field := exponentField bits
  let fraction := fractionField bits
  if field = 2047 ∧ fraction ≠ 0 then "NaN"
  else
    let magnitude :=
      if field = 2047 then "inf"
      else if field = 0 ∧ fraction = 0 then "0.0"
      else (Dyadic.ofBits bits).shortest.normalize.text
    if bits < 0x8000000000000000 then magnitude else "-" ++ magnitude

end NestedPoly.Decimal
