import NestedPoly.Fault
import NestedPoly.Primes

/-!
Exponent vectors as products of prime powers.

With one prime per variable, the vector `e` has the code `p_0 ^ e_0 * p_1 ^ e_1 ⋯`. Factorization into
primes is unique, so codes tell vectors apart, and a monomial is divisible by `x_d ^ k` exactly if its
code is divisible by `p_d ^ k`. Codes stay below `2 ^ 128`; a vector whose code would not is refused.
-/

namespace NestedPoly

def codeLimit : Nat := UInt64.size * UInt64.size

/-- `value * base ^ exponent` if it stays below the limit. The multiplication stops at the first
product that does not. -/
def boundedPowerFrom (base : Nat) : Nat → Nat → Option Nat
  | 0, value => some value
  | exponent + 1, value =>
    if value * base < codeLimit then boundedPowerFrom base exponent (value * base) else none

structure PrimeCoding where
  primes : Array UInt64
  deriving DecidableEq, Repr

namespace PrimeCoding

def ofDim (dim : Nat) : PrimeCoding := ⟨smallestPrimes dim⟩

def dim (coding : PrimeCoding) : Nat := coding.primes.size

def prime (coding : PrimeCoding) (var : Nat) : Except Fault UInt64 := fetch coding.primes var

def one : Nat := 1

/-- The code of `x_var ^ exponent`. There is none without such a variable, or above the limit. -/
def codeOfPower (coding : PrimeCoding) (var exponent : Nat) : Option Nat := do
  let prime ← coding.primes[var]?
  boundedPowerFrom prime.toNat exponent 1

def extend (coding : PrimeCoding) (code var exponent : Nat) : Except Fault Nat :=
  if exponent = 0 then .ok code
  else
    match coding.codeOfPower var exponent with
    | some factor =>
      if code * factor < codeLimit then .ok (code * factor)
      else .error (.codeTooLarge var exponent)
    | none => .error (.codeTooLarge var exponent)

def codeOf (coding : PrimeCoding) (exponents : List Nat) : Except Fault Nat :=
  if exponents.length ≠ coding.dim then
    .error (.wrongDimension coding.dim exponents.length)
  else
    exponents.zipIdx.foldlM (fun code (exponent, var) => coding.extend code var exponent) one

def powerDivides (coding : PrimeCoding) (var exponent code : Nat) : Bool :=
  match coding.codeOfPower var exponent with
  | some factor => code % factor = 0
  | none => false

def occurs (coding : PrimeCoding) (var code : Nat) : Bool := coding.powerDivides var 1 code

def quotient? (coding : PrimeCoding) (var exponent code : Nat) : Option Nat := do
  let factor ← coding.codeOfPower var exponent
  if code % factor = 0 then some (code / factor) else none

end PrimeCoding

/-- Codings that have been made, one per dimension. A coding stays once it is there. -/
structure CodingShelf where
  codings : List (Nat × PrimeCoding)
  deriving DecidableEq, Repr

namespace CodingShelf

def empty : CodingShelf := ⟨[]⟩

def size (shelf : CodingShelf) : Nat := shelf.codings.length

def isEmpty (shelf : CodingShelf) : Bool := shelf.codings.isEmpty

def find? (shelf : CodingShelf) (dim : Nat) : Option PrimeCoding := shelf.codings.lookup dim

def get (shelf : CodingShelf) (dim : Nat) : PrimeCoding × CodingShelf :=
  match shelf.find? dim with
  | some coding => (coding, shelf)
  | none =>
    let coding := PrimeCoding.ofDim dim
    (coding, ⟨(dim, coding) :: shelf.codings⟩)

end CodingShelf

end NestedPoly
