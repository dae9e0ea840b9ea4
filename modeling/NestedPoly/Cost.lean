import NestedPoly.Sum

/-!
What an evaluation costs.

Computing `x ^ k` takes `k - 1` multiplications, scaling a value by it one more, and joining two
partial sums takes one addition. A term `c * x ^ a * y ^ b` therefore costs `a + b` multiplications.
-/

namespace NestedPoly

structure Cost where
  multiplications : Nat
  additions : Nat
  deriving DecidableEq, Repr

namespace Cost

instance : Zero Cost := ⟨⟨0, 0⟩⟩

instance : Add Cost :=
  ⟨fun a b => ⟨a.multiplications + b.multiplications, a.additions + b.additions⟩⟩

def scaling (k : Nat) : Cost := ⟨k, 0⟩

def joining : Cost := ⟨0, 1⟩

/-- Adding up terms of the given total degrees, one after the other. -/
def termByTerm (degrees : List Nat) : Cost := ⟨sumOf degrees, degrees.length - 1⟩

def total (cost : Cost) : Nat := cost.multiplications + cost.additions

def text (cost : Cost) : String :=
  toString cost.multiplications ++ " mul + " ++ toString cost.additions ++ " add"

end Cost

end NestedPoly
