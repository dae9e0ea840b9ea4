import NestedPoly.Storage.Save

/-!
Polynomials from documents.

A value with named parts is read from a record, where entries of other names are passed over, or
from the list of exactly its parts. A nested form is checked as it is read: its nodes have to be one
tree, within the dimension. A sparse polynomial is taken as it stands.
-/

namespace NestedPoly

inductive LoadFault where
  | unreadable
  | refused (cause : Fault)
  deriving DecidableEq, Repr

namespace Load

def nat (limit : Nat) : Document → Except LoadFault Nat
  | .int value => if 0 ≤ value ∧ value < limit then .ok value.toNat else .error .unreadable
  | _ => .error .unreadable

def word : Document → Except LoadFault Nat := nat UInt64.size

def halfWord : Document → Except LoadFault Nat := nat UInt32.size

def bool : Document → Except LoadFault Bool
  | .bool value => .ok value
  | _ => .error .unreadable

def float : Document → Except LoadFault Float
  | .real value => .ok value
  | .int value => .ok (Float.ofInt value)
  | _ => .error .unreadable

def list {τ : Type} (item : Document → Except LoadFault τ) :
    Document → Except LoadFault (List τ)
  | .list items => items.mapM item
  | _ => .error .unreadable

def powerOf : Document → Except LoadFault (Nat × Nat)
  | .list [var, exponent] => do return (← word var, ← halfWord exponent)
  | _ => .error .unreadable

def parts (names : List String) : Document → Except LoadFault (List Document)
  | .record entries =>
    match names.mapM (List.lookup · entries) with
    | some parts => .ok parts
    | none => .error .unreadable
  | .list items => if items.length = names.length then .ok items else .error .unreadable
  | _ => .error .unreadable

end Load

open Load

def Cost.load (document : Document) : Except LoadFault Cost := do
  match ← parts ["multiplications", "additions"] document with
  | [multiplications, additions] => return ⟨← word multiplications, ← word additions⟩
  | _ => throw .unreadable

def TermOrder.load : Document → Except LoadFault TermOrder
  | .text name | .record [(name, .null)] =>
    if name = lex.storedName then .ok lex
    else if name = grlex.storedName then .ok grlex
    else if name = grevlex.storedName then .ok grevlex
    else .error .unreadable
  | _ => .error .unreadable

def Monomial.load (document : Document) : Except LoadFault (Monomial Float) := do
  match ← parts ["coefficient", "exponents"] document with
  | [coefficient, exponents] => return ⟨← float coefficient, ← list halfWord exponents⟩
  | _ => throw .unreadable

def SparsePoly.load (document : Document) : Except LoadFault (SparsePoly Float) := do
  match ← parts ["monomials", "dim", "max_exponents", "validate"] document with
  | [monomials, dim, degreeBounds, checked] =>
    return ⟨← list Monomial.load monomials, ← word dim, ← list halfWord degreeBounds,
      ← bool checked⟩
  | _ => throw .unreadable

/-- The position of a child. Null, or no entry at all, stands for a node without a rest. -/
def Node.loadRest : Option Document → Except LoadFault (Option Nat)
  | none | some .null => .ok none
  | some document => do return some (← halfWord document)

def Node.load : Document → Except LoadFault (Node Float)
  | .record [("Leaf", .record entries)] => do
    match ← parts ["coefficient", "powers"] (.record entries) with
    | [coefficient, powers] => return .leaf (← float coefficient) (← list powerOf powers)
    | _ => throw .unreadable
  | .record [("Factor", .record entries)] => do
    match ← parts ["variable", "power", "factored"] (.record entries) with
    | [var, power, factored] =>
      return .factor (← word var) (← halfWord power) (← halfWord factored)
        (← Node.loadRest (entries.lookup "rest"))
    | _ => throw .unreadable
  | _ => .error .unreadable

def Arena.load (document : Document) : Except LoadFault (Arena Float) := do
  let nodes ← list Node.load document
  (Arena.ofNodes nodes.toArray).mapError .refused

def NestedForm.ofParts :
    Option (Arena Float) → Option Nat → Option Bool → Except LoadFault (NestedForm Float)
  | some arena, some dim, some checked =>
    (NestedForm.ofArena? arena dim checked).mapError .refused
  | _, _, _ => .error .unreadable

/-- A nested form. The parts are read one after the other, in a record by the order of their names,
in a list as they stand, and the first that is refused decides. Only then is it seen whether all are
there. -/
def NestedForm.load : Document → Except LoadFault (NestedForm Float)
  | .record entries => do
    let dim ← (entries.lookup "dim").mapM word
    let arena ← (entries.lookup "tree").mapM Arena.load
    let checked ← (entries.lookup "validate").mapM bool
    NestedForm.ofParts arena dim checked
  | .list items => do
    let arena ← items[0]?.mapM Arena.load
    let dim ← items[1]?.mapM word
    let checked ← items[2]?.mapM bool
    if 3 < items.length then throw .unreadable
    NestedForm.ofParts arena dim checked
  | _ => .error .unreadable

end NestedPoly
