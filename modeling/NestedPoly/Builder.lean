import NestedPoly.Arena
import NestedPoly.Term

namespace NestedPoly

def nodeLimit : Nat := UInt32.size - 1

/-- The nodes so far, and the positions of those that wait for a parent, the last first. -/
structure Builder (α : Type) where
  nodes : Array (Node α)
  waiting : List Nat
  deriving DecidableEq, Repr

namespace Builder

variable {α : Type}

def empty : Builder α := ⟨#[], []⟩

def place (built : Builder α) (node : Node α) (waiting : List Nat) : Except Fault (Builder α) :=
  if built.nodes.size < nodeLimit then
    .ok ⟨built.nodes.push node, built.nodes.size :: waiting⟩
  else .error .treeFull

def leaf (built : Builder α) (term : Term α) : Except Fault (Builder α) :=
  built.place (.leaf term.coefficient (nonzeroPowers term.exponents)) built.waiting

/-- Puts a node over the last branch built, or over the last two. -/
def join (built : Builder α) (var power : Nat) (hasRest : Bool) : Except Fault (Builder α) :=
  match hasRest, built.waiting with
  | true, rest :: factored :: waiting =>
    built.place (.factor var power factored (some rest)) waiting
  | false, factored :: waiting => built.place (.factor var power factored none) waiting
  | _, waiting => .error (.pastEnd waiting.length (if hasRest then 1 else 0))

/-- The arena of the nodes. Nothing built is no arena. -/
def finish (built : Builder α) : Option (Arena α) :=
  if built.nodes.isEmpty then none else some ⟨built.nodes⟩

end Builder

end NestedPoly
