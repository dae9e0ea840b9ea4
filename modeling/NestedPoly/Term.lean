import NestedPoly.Fault
import NestedPoly.Monomial
import NestedPoly.PrimeCoding

namespace NestedPoly

structure Term (α : Type) where
  coefficient : α
  exponents : List Nat
  code : Option Nat
  position : Nat
  deriving DecidableEq, Repr

namespace Term

variable {α : Type}

def exponent (term : Term α) (var : Nat) : Nat := term.exponents.getD var 0

def contains (coding : Option PrimeCoding) (var : Nat) (term : Term α) : Bool :=
  match coding, term.code with
  | some coding, some code => coding.occurs var code
  | _, _ => 0 < term.exponent var

def divide (coding : Option PrimeCoding) (var power : Nat) (term : Term α) : Term α :=
  { term with
    exponents := term.exponents.modify var (· - power)
    code := do (← coding).quotient? var power (← term.code) }

end Term

variable {α : Type}

def exponentSums (dim : Nat) (branch : Array (Term α)) : List UInt64 :=
  branch.foldl
    (fun sums term => sums.zipWith (fun sum exponent => sum + UInt64.ofNat exponent) term.exponents)
    (List.replicate dim 0)

/-- The position of the largest entry, the first of equals. There is none if all are zero. -/
def heaviest (sums : List UInt64) : Option Nat :=
  let largest := sums.foldl max 0
  if largest = 0 then none else sums.idxOf? largest

/-- The smallest power of the variable in the terms, all of which have it. -/
def smallestPower (var : Nat) (inside : Array (Term α)) : Nat :=
  (inside.toList.map (Term.exponent · var)).min?.getD 1

def firstTwo (positions : List Nat) : Fault :=
  match positions.mergeSort with
  | first :: second :: _ => .repeatedExponents first second
  | ordered => .pastEnd ordered.length ordered.length

def repeated (branch : Array (Term α)) : Fault :=
  firstTwo (branch.toList.map Term.position)

/-- A bound on the number of tasks that come of a branch. Each split removes a nonzero exponent and
leaves one join behind, and each term ends in one leaf. -/
def taskBound (terms : Array (Term α)) : Nat :=
  terms.size + 2 * sumOf (terms.toList.map fun term => term.exponents.countP (0 < ·))

end NestedPoly
