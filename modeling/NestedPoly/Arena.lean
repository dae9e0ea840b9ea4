import NestedPoly.Point

/-!
Nested forms laid out in an array.

A polynomial in nested form is a tree: a leaf is a term, an inner node stands for
`x_var ^ power * factored + rest`. The nodes lie in one array, children before their parents and the
root last, and name their children by position. Every question about the tree is answered in one
pass over the array, however deep the tree is.
-/

namespace NestedPoly

inductive Node (α : Type) where
  /-- The coefficient times the listed powers of variables. -/
  | leaf (coefficient : α) (powers : List (Nat × Nat))
  /-- The power of a variable times the node at `factored`, plus the node at `rest` if there is
  one. -/
  | factor (var power factored : Nat) (rest : Option Nat)
  deriving BEq, DecidableEq, Repr

namespace Node

variable {α : Type}

def isLeaf : Node α → Bool
  | leaf .. => true
  | factor .. => false

def children : Node α → List Nat
  | leaf .. => []
  | factor _ _ factored rest => factored :: rest.toList

def cost : Node α → Cost
  | leaf _ powers => (powers.map fun (_, exponent) => Cost.scaling exponent).sum
  | factor _ power _ rest =>
    if rest.isSome then Cost.scaling power + Cost.joining else Cost.scaling power

def largestVariable : Node α → Option Nat
  | leaf _ powers => (powers.map Prod.fst).max?
  | factor var .. => some var

def value [Scalar α] (point values : Array α) : Node α → Except Fault α
  | leaf coefficient powers => scaleByPowers point coefficient powers
  | factor var power factored rest => do
    let inner ← fetch values factored
    let coordinate ← fetch point var
    let scaled := inner * NestedPoly.power coordinate power
    match rest with
    | some rest => return scaled + (← fetch values rest)
    | none => return scaled

end Node

structure Arena (α : Type) where
  nodes : Array (Node α)
  deriving BEq, DecidableEq, Repr

namespace Arena

variable {α : Type}

def size (arena : Arena α) : Nat := arena.nodes.size

def isEmpty (arena : Arena α) : Bool := arena.nodes.isEmpty

def root (arena : Arena α) : Nat := arena.nodes.size - 1

def node (arena : Arena α) (index : Nat) : Except Fault (Node α) := fetch arena.nodes index

def eval [Scalar α] (arena : Arena α) (point : Array α) : Except Fault α := do
  let values ← arena.nodes.foldlM (fun values node => do
    return values.push (← node.value point values)) #[]
  fetch values arena.root

def cost (arena : Arena α) : Cost := arena.nodes.foldl (fun sum node => sum + node.cost) 0

def countLeaves (arena : Arena α) : Nat := arena.nodes.countP Node.isLeaf

def depth (arena : Arena α) : Nat :=
  let depths := arena.nodes.foldl (fun (depths : Array Nat) node =>
    depths.push (1 + (node.children.map fun child => depths.getD child 0).foldl max 0)) #[]
  depths.getD arena.root 0

def largestVariable (arena : Arena α) : Option Nat :=
  (arena.nodes.toList.filterMap Node.largestVariable).max?

end Arena

end NestedPoly
