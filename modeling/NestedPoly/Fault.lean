namespace NestedPoly

inductive ShapeDefect where
  | noNodes
  | tooManyNodes
  | childNotBefore
  | twoParents
  | unreachable
  deriving DecidableEq, Repr

def ShapeDefect.reason : ShapeDefect → String
  | noNodes => "tree has no nodes"
  | tooManyNodes => "too many nodes"
  | childNotBefore => "child does not precede its parent"
  | twoParents => "node has two parents"
  | unreachable => "node is unreachable from the root"

inductive Fault where
  | countMismatch (coefficients rows : Nat)
  | unevenRow (row expected found : Nat)
  | exponentOutOfRange (row var : Nat) (value : Int)
  | repeatedExponents (first second : Nat)
  | variableBeyond (var dim : Nat)
  | brokenTree (node : Nat) (defect : ShapeDefect)
  | wrongDimension (expected found : Nat)
  | noMonomials
  | codeTooLarge (var exponent : Nat)
  | pastEnd (length index : Nat)
  | treeFull
  deriving DecidableEq, Repr

def Fault.message : Fault → String
  | countMismatch coefficients rows =>
    s!"got {coefficients} coefficients but {rows} exponent rows"
  | unevenRow row expected found => s!"exponent row {row} has {found} entries, expected {expected}"
  | exponentOutOfRange row var value =>
    s!"exponent {value} at row {row}, variable {var} is not a valid non-negative exponent"
  | repeatedExponents first second =>
    s!"monomials {first} and {second} have identical exponent vectors"
  | variableBeyond var dim => s!"variable {var} is out of range for dimension {dim}"
  | brokenTree node defect =>
    s!"malformed factorization tree at node {node}: {defect.reason}"
  | wrongDimension expected found =>
    s!"input has {found} coordinates but the polynomial has dimension {expected}"
  | noMonomials => "polynomial has no monomials"
  | codeTooLarge var exponent =>
    s!"monomial id overflows u128 at variable {var} with exponent {exponent}"
  | pastEnd length index =>
    s!"index out of bounds: the len is {length} but the index is {index}"
  | treeFull => "Tree capacity exceeded"

def fetch {α : Type} (entries : Array α) (index : Nat) : Except Fault α :=
  match entries[index]? with
  | some entry => .ok entry
  | none => .error (.pastEnd entries.size index)

theorem fetch_of_lt {α : Type} {entries : Array α} {index : Nat} (below : index < entries.size) :
    fetch entries index = .ok entries[index] := by
  simp [fetch, below]

theorem lt_of_fetch_eq_ok {α : Type} {entries : Array α} {index : Nat} {entry : α}
    (read : fetch entries index = .ok entry) : index < entries.size := by
  unfold fetch at read
  split at read
  · rename_i found
    exact (Array.getElem?_eq_some_iff.mp found).1
  · cases read

theorem bind_eq_ok_iff {ε σ τ : Type} {first : Except ε σ} {next : σ → Except ε τ} {result : τ} :
    (first >>= next) = .ok result ↔ ∃ value, first = .ok value ∧ next value = .ok result := by
  cases first <;> simp [bind, Except.bind]

theorem bind_eq_error_iff {ε σ τ : Type} {first : Except ε σ} {next : σ → Except ε τ}
    {fault : ε} : (first >>= next) = .error fault ↔
      first = .error fault ∨ ∃ value, first = .ok value ∧ next value = .error fault := by
  cases first <;> simp [bind, Except.bind]

end NestedPoly
