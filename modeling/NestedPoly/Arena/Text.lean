import NestedPoly.Arena
import NestedPoly.Monomial

/-!
The printed nested form.

An inner node is written `x_v^k [ … ]` around its factored child, followed by ` + ` and the rest. A
leaf is its coefficient, in brackets after its powers if there are any. Variables are numbered from
one. What is still to be written waits on a stack, so that depth costs nothing.
-/

namespace NestedPoly

inductive Piece where
  | node (index : Nat)
  | text (text : String)

namespace Node

variable {α : Type}

def leafText (scalarText : α → String) (coefficient : α) (powers : List (Nat × Nat)) : String :=
  if powers.isEmpty then scalarText coefficient
  else appendPowers "" powers ++ " [ " ++ scalarText coefficient ++ " ]"

def reference (index : Nat) : String := s!"Node({index})"

def description (scalarText : α → String) : Node α → String
  | leaf coefficient powers =>
    let pairs := powers.map fun (var, exponent) => s!"({var}, {exponent})"
    "Leaf \x7b coefficient: " ++ scalarText coefficient ++
      ", powers: [" ++ String.intercalate ", " pairs ++ "] \x7d"
  | factor var power factored rest =>
    let restText := match rest with
      | some index => "Some(" ++ reference index ++ ")"
      | none => "None"
    "Factor \x7b variable: " ++ toString var ++ ", power: " ++ toString power ++
      ", factored: " ++ reference factored ++ ", rest: " ++ restText ++ " \x7d"

end Node

namespace Arena

variable {α : Type}

def writePiece (scalarText : α → String) (arena : Arena α) : Piece → String × List Piece
  | .text text => (text, [])
  | .node index =>
    match arena.nodes[index]? with
    | none => ("", [])
    | some (.leaf coefficient powers) => (Node.leafText scalarText coefficient powers, [])
    | some (.factor var power factored none) =>
      (s!"x_{var + 1}^{power} [ ", [.node factored, .text " ]"])
    | some (.factor var power factored (some rest)) =>
      (s!"x_{var + 1}^{power} [ ", [.node factored, .text " ]", .text " + ", .node rest])

/-- Writes the pieces in order. What goes on with a piece comes before those that wait. -/
def writePieces (scalarText : α → String) (arena : Arena α) : Nat → List Piece → String → String
  | _, [], out => out
  | 0, _ :: _, out => out
  | fuel + 1, piece :: pending, out =>
    let (text, following) := arena.writePiece scalarText piece
    writePieces scalarText arena fuel (following ++ pending) (out ++ text)

/-- The text of the tree. Each of its nodes is one piece, and an inner node brings along two texts
at most. -/
def text (scalarText : α → String) (arena : Arena α) : String :=
  arena.writePieces scalarText (3 * arena.size) [.node arena.root] ""

end Arena

end NestedPoly
