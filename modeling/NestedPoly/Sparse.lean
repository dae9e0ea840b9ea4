import NestedPoly.Monomial
import NestedPoly.TermOrder

namespace NestedPoly

structure BuildOptions where
  sort : Bool
  checked : Bool
  order : TermOrder
  deriving DecidableEq, Repr

namespace BuildOptions

def standard : BuildOptions := ⟨false, true, .grlex⟩

def strict : BuildOptions := { standard with sort := true }

def lenient : BuildOptions := { standard with checked := false }

end BuildOptions

structure SparsePoly (α : Type) where
  monomials : List (Monomial α)
  dim : Nat
  degreeBounds : List Nat
  checked : Bool
  deriving BEq, DecidableEq, Repr

/-- The positions of the first entry that equals an earlier one: the earlier first. -/
def firstRepeat (vectors : List (List Nat)) : Option (Nat × Nat) :=
  vectors.zipIdx.findSome? fun (vector, second) =>
    ((vectors.take second).idxOf? vector).map fun first => (first, second)

def readExponents (row : Nat) (entries : List Int) : Except Fault (List Nat) :=
  entries.zipIdx.mapM fun (value, var) =>
    if 0 ≤ value ∧ value < UInt32.size then .ok value.toNat
    else .error (.exponentOutOfRange row var value)

def readMonomial {α : Type} (dim row : Nat) (coefficient : α) (entries : List Int) :
    Except Fault (Monomial α) := do
  if entries.length ≠ dim then throw (.unevenRow row dim entries.length)
  return ⟨coefficient, ← readExponents row entries⟩

def checkDimensions {α : Type} (dim : Nat) (monomials : List (Monomial α)) : Except Fault Unit :=
  match monomials.zipIdx.find? fun (m, _) => m.dim ≠ dim with
  | some (m, row) => .error (.unevenRow row dim m.dim)
  | none => .ok ()

namespace SparsePoly

variable {α : Type}

def ofMonomials (dim : Nat) (monomials : List (Monomial α)) (options : BuildOptions) :
    Except Fault (SparsePoly α) := do
  if monomials.isEmpty then throw .noMonomials
  checkDimensions dim monomials
  if options.checked then
    if let some (first, second) := firstRepeat (monomials.map Monomial.exponents) then
      throw (.repeatedExponents first second)
  let sorted :=
    if options.sort then
      monomials.mergeSort fun a b => (options.order.compareVectors a.exponents b.exponents).isLE
    else monomials
  let degreeBounds :=
    sorted.foldl (fun best m => best.zipWith max m.exponents) (List.replicate dim 0)
  return ⟨sorted, dim, degreeBounds, options.checked⟩

/-- One coefficient and one row of exponents per monomial. The first row fixes the dimension. -/
def ofRows (coefficients : List α) (rows : List (List Int)) (options : BuildOptions) :
    Except Fault (SparsePoly α) :=
  if coefficients.length ≠ rows.length then
    .error (.countMismatch coefficients.length rows.length)
  else
    match rows with
    | [] => .error .noMonomials
    | first :: _ => do
      let dim := first.length
      let monomials ← (coefficients.zip rows).zipIdx.mapM fun ((coefficient, entries), row) =>
        readMonomial dim row coefficient entries
      ofMonomials dim monomials options

def length (p : SparsePoly α) : Nat := p.monomials.length

def isEmpty (p : SparsePoly α) : Bool := p.monomials.isEmpty

def degree (p : SparsePoly α) : Nat := (p.monomials.map Monomial.degree).foldl max 0

def cost (p : SparsePoly α) : Cost := .termByTerm (p.monomials.map Monomial.degree)

def evalRaw [Scalar α] (p : SparsePoly α) (point : Array α) : Except Fault α :=
  p.monomials.foldlM (fun sum m => do return sum + (← m.eval point)) Scalar.emptySum

instance [Scalar α] : Evaluable (SparsePoly α) α := ⟨dim, evalRaw, cost⟩

def eval [Scalar α] (p : SparsePoly α) (point : Array α) : Except Fault α := do
  if p.checked then checkLength p.dim point
  p.evalRaw point

def text (scalarText : α → String) (p : SparsePoly α) : String :=
  s!"[{p.cost.total}] p(x) = " ++
    String.intercalate " + " (p.monomials.map (Monomial.text scalarText))

end SparsePoly

end NestedPoly
