import NestedPoly.Sum

/-!
Orders on exponent vectors.

They are meant for vectors of one length; on others they still give an answer. Degrees are added up in
64 bits, so that two of the orders are by degree only as long as degrees fit.
-/

namespace NestedPoly

inductive TermOrder where
  | lex
  | grlex
  /-- By total degree, then the greater is the one with less of the last variable that differs. -/
  | grevlex
  deriving DecidableEq, Repr

namespace TermOrder

/-- Compares entry by entry. A vector that continues another is the greater. -/
def compareLex : List Nat → List Nat → Ordering
  | [], [] => .eq
  | [], _ :: _ => .lt
  | _ :: _, [] => .gt
  | a :: as, b :: bs => (compare a b).then (compareLex as bs)

/-- Compares from the last common entry back, where a smaller entry makes the greater vector. -/
def compareRevlex (a b : List Nat) : Ordering :=
  (a.zip b).foldl (fun earlier (x, y) => (compare y x).then earlier) .eq

def compareGrlex (a b : List Nat) : Ordering :=
  (compare (wordSum a) (wordSum b)).then (compareLex a b)

def compareGrevlex (a b : List Nat) : Ordering :=
  (compare (wordSum a) (wordSum b)).then (compareRevlex a b)

def compareVectors : TermOrder → List Nat → List Nat → Ordering
  | lex => compareLex
  | grlex => compareGrlex
  | grevlex => compareGrevlex

def name : TermOrder → String
  | lex => "lex"
  | grlex => "grlex"
  | grevlex => "grevlex"

end TermOrder

end NestedPoly
