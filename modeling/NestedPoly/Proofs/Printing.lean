import Mathlib
import NestedPoly.Proofs.Positions

/-! The stack of pieces prints the nested form.

While a node is written, the brackets and sums around it wait on the stack. They are untouched until
its own pieces are gone, so what is written of a node is the text of its tree, and the loop ends since
the walk through the tree ends. -/

namespace NestedPoly

variable {α : Type}

theorem isDigit_of_mem_repr {n : Nat} {c : Char} (member : c ∈ n.repr.toList) : c.isDigit = true := by
  rw [Nat.toList_repr] at member
  exact Nat.isDigit_of_mem_toDigits (by decide) (by decide) member

theorem powerText_eq (power : Nat × Nat) :
    powerText power = "x_" ++ (power.1 + 1).repr ++ "^" ++ power.2.repr := by
  simp [powerText, toString]

/-- The last character is a digit, so that a blank is due before the next power. -/
def EndsInDigit (text : String) : Prop := ∃ digit, digit.isDigit ∧ text.toList.getLast? = some digit

theorem endsInDigit_append_powerText (out : String) (power : Nat × Nat) :
    EndsInDigit (out ++ powerText power) := by
  have some : power.2.repr.toList ≠ [] := by
    rw [Nat.toList_repr]
    exact Nat.toDigits_ne_nil
  refine ⟨power.2.repr.toList.getLast some, isDigit_of_mem_repr (List.getLast_mem some), ?_⟩
  rw [powerText_eq, ← String.append_assoc, String.toList_append,
    List.getLast?_append_of_ne_nil _ some, List.getLast?_eq_some_getLast some]

theorem appendPowers_cons_of_endsInDigit {out : String} (ends : EndsInDigit out)
    (power : Nat × Nat) (powers : List (Nat × Nat)) :
    appendPowers out (power :: powers) = appendPowers (out ++ " " ++ powerText power) powers := by
  rcases ends with ⟨digit, isDigit, last⟩
  have present : ¬ out.isEmpty := by
    intro empty
    rw [String.isEmpty_iff] at empty
    rw [empty] at last
    cases last
  have apart : out.toList.getLast? ≠ some ' ' := by
    intro blank
    rw [last, Option.some.injEq] at blank
    rw [blank] at isDigit
    contradiction
  have separated : ¬ (out.isEmpty ∨ out.toList.getLast? = some ' ') := not_or.mpr ⟨present, apart⟩
  rw [appendPowers, List.foldl_cons]
  simp only [if_neg separated]
  rfl

theorem appendPowers_of_endsInDigit {out : String} (ends : EndsInDigit out)
    (powers : List (Nat × Nat)) :
    appendPowers out powers = String.intercalate " " (out :: powers.map powerText) := by
  induction powers generalizing out with
  | nil => exact String.intercalate_singleton.symm
  | cons power powers ih =>
      rw [appendPowers_cons_of_endsInDigit ends, ih (endsInDigit_append_powerText _ power),
        String.intercalate_cons_append, List.map_cons, String.intercalate_cons_cons]

theorem appendPowers_empty (powers : List (Nat × Nat)) :
    appendPowers "" powers = String.intercalate " " (powers.map powerText) := by
  cases powers with
  | nil => rfl
  | cons power powers =>
      have first : appendPowers "" (power :: powers) = appendPowers ("" ++ powerText power) powers :=
        rfl
      rw [first, appendPowers_of_endsInDigit (endsInDigit_append_powerText "" power),
        String.empty_append]
      rfl

theorem leafText_eq (scalarText : α → String) (coefficient : α) (powers : List (Nat × Nat)) :
    Node.leafText scalarText coefficient powers = (Nest.leaf coefficient powers).text scalarText := by
  cases powers with
  | nil => rfl
  | cons power powers =>
      rw [Node.leafText, Nest.text, appendPowers_empty]
      · rfl
      · exact List.cons_ne_nil power powers

def Piece.index? : Piece → Option Nat
  | node index => some index
  | text _ => none

namespace Arena

/-- The loop comes to its end from the pieces that are pending: it takes the pieces `written`, one
after the other, and writes `out`. -/
inductive Writes (scalarText : α → String) (arena : Arena α) :
    List Piece → List Piece → String → Prop where
  | done : Writes scalarText arena [] [] ""
  | next {piece : Piece} {pending written : List Piece} {out : String}
      (rest : Writes scalarText arena ((arena.writePiece scalarText piece).2 ++ pending) written out) :
      Writes scalarText arena (piece :: pending) (piece :: written)
        ((arena.writePiece scalarText piece).1 ++ out)

variable {scalarText : α → String} {arena : Arena α}

theorem writePieces_of_writes {pending written : List Piece} {out : String}
    (writes : Writes scalarText arena pending written out) {fuel : Nat}
    (enough : written.length ≤ fuel) (before : String) :
    arena.writePieces scalarText fuel pending before = before ++ out := by
  induction writes generalizing fuel before with
  | done => cases fuel <;> simp [writePieces]
  | @next piece pending written out rest ih =>
      cases fuel with
      | zero => simp at enough
      | succ fuel =>
          rw [writePieces, ← String.append_assoc]
          exact ih (Nat.le_of_succ_le_succ enough) _

theorem Writes.turn {piece : Piece} {text : String} {following pending written : List Piece}
    {out : String} (step : arena.writePiece scalarText piece = (text, following))
    (rest : Writes scalarText arena (following ++ pending) written out) :
    Writes scalarText arena (piece :: pending) (piece :: written) (text ++ out) := by
  have next := @Writes.next α scalarText arena piece pending written out
  rw [step] at next
  exact next rest

section
variable {i var power factored : Nat} {pending written : List Piece} {out : String}

theorem writePiece_of_leaf {coefficient : α} {powers : List (Nat × Nat)}
    (place : arena.nodes[i]? = some (.leaf coefficient powers)) :
    arena.writePiece scalarText (.node i) =
      ((Nest.leaf coefficient powers).text scalarText, []) := by
  simp only [writePiece, place, leafText_eq]

theorem writePiece_of_scaled (place : arena.nodes[i]? = some (.factor var power factored none)) :
    arena.writePiece scalarText (.node i) =
      (powerText (var, power) ++ " [ ", [.node factored, .text " ]"]) := by
  simp only [writePiece, place]
  rfl

theorem writePiece_of_joined {rest : Nat}
    (place : arena.nodes[i]? = some (.factor var power factored (some rest))) :
    arena.writePiece scalarText (.node i) =
      (powerText (var, power) ++ " [ ", [.node factored, .text " ]", .text " + ", .node rest]) := by
  simp only [writePiece, place]
  rfl

end

/-- A node is written as the text of its tree, whatever waits behind it. On the way each node of the
tree is taken once, and with it no more than two pieces of text. -/
theorem writes_of_hangs {i : Nat} {nest : Nest α} {positions : List Nat}
    (hangs : Hangs arena.nodes i nest positions) {pending written : List Piece} {out : String}
    (writes : Writes scalarText arena pending written out) :
    ∃ pieces, Writes scalarText arena (.node i :: pending) (pieces ++ written)
        (nest.text scalarText ++ out) ∧
      pieces.filterMap Piece.index? = positions ∧ pieces.length ≤ 3 * positions.length := by
  induction hangs generalizing pending written out with
  | leaf place => exact ⟨[_], Writes.turn (writePiece_of_leaf place) writes, rfl, by simp⟩
  | @scaled i var power factored inner below place under ih =>
      have closed : Writes scalarText arena (.text " ]" :: pending) (.text " ]" :: written)
          (" ]" ++ out) := Writes.turn rfl writes
      rcases ih closed with ⟨pieces, inside, taken, few⟩
      refine ⟨.node i :: (pieces ++ [.text " ]"]), ?_, ?_, ?_⟩
      · have whole := Writes.turn (writePiece_of_scaled place) inside
        simpa [Nest.text, String.append_assoc] using whole
      · simp [Piece.index?, taken]
      · simp only [List.length_cons, List.length_append, List.length_nil]
        omega
  | @joined i var power factored rest inner outer below beside place under next innerIh outerIh =>
      -- The run is put together from its end: rest, sign, bracket, and at last the factored node.
      rcases outerIh writes with ⟨outerPieces, outside, outerTaken, outerFew⟩
      have added : Writes scalarText arena (.text " + " :: .node rest :: pending)
          (.text " + " :: (outerPieces ++ written)) (" + " ++ (outer.text scalarText ++ out)) :=
        Writes.turn rfl outside
      have closed : Writes scalarText arena (.text " ]" :: .text " + " :: .node rest :: pending)
          (.text " ]" :: .text " + " :: (outerPieces ++ written))
          (" ]" ++ (" + " ++ (outer.text scalarText ++ out))) := Writes.turn rfl added
      rcases innerIh closed with ⟨pieces, inside, taken, few⟩
      refine ⟨.node i :: (pieces ++ .text " ]" :: .text " + " :: outerPieces), ?_, ?_, ?_⟩
      · have whole := Writes.turn (writePiece_of_joined place) inside
        simpa only [Nest.text, String.append_assoc, List.append_assoc, List.cons_append] using whole
      · simp [Piece.index?, taken, outerTaken, List.filterMap_cons]
      · simp only [List.length_cons, List.length_append]
        omega

theorem exists_writes {nest : Nest α} (tree : OneTree arena.nodes)
    (found : arena.nest? = some nest) :
    ∃ written, Writes scalarText arena [.node arena.root] written (nest.text scalarText) ∧
      (written.filterMap Piece.index?).Perm (List.range arena.size) ∧
      written.length ≤ 3 * arena.size := by
  rcases exists_hangs tree.descending tree.last_lt with ⟨whole, positions, hangs⟩
  cases (nestAt?_of_hangs tree.descending hangs).symm.trans found
  have each := positions_perm_range tree hangs
  rcases writes_of_hangs hangs Writes.done with ⟨written, writes, taken, few⟩
  rw [List.append_nil, String.append_empty] at writes
  rw [each.length_eq, List.length_range] at few
  exact ⟨written, writes, taken ▸ each, few⟩

theorem text_eq_of_oneTree {nest : Nest α} (tree : OneTree arena.nodes)
    (found : arena.nest? = some nest) : arena.text scalarText = nest.text scalarText := by
  rcases @exists_writes α scalarText arena nest tree found with ⟨written, writes, _, few⟩
  rw [text, writePieces_of_writes writes few, String.empty_append]

end Arena

/-- Of an accepted arena the loop takes every node once, comes to its end, and has then written what
the recursion from the root writes: a constant bare, powers in a row before the brackets around their
coefficient, a power before the brackets around what it multiplies, and a sum after them. -/
theorem stack_writes_nested_form (scalarText : α → String) {nodes : Array (Node α)}
    {arena : Arena α} (accepted : Arena.ofNodes nodes = .ok arena) :
    ∃ nest written, arena.nest? = some nest ∧
      arena.Writes scalarText [.node arena.root] written (nest.text scalarText) ∧
      (written.filterMap Piece.index?).Perm (List.range arena.size) ∧
      arena.text scalarText = nest.text scalarText := by
  rcases Arena.ofNodes_eq_ok_iff.mp accepted with ⟨⟨_, tree⟩, rfl⟩
  rcases Arena.exists_nest?_of_oneTree tree with ⟨nest, found⟩
  rcases Arena.exists_writes tree found with ⟨written, writes, each, _⟩
  exact ⟨nest, written, found, writes, each, Arena.text_eq_of_oneTree tree found⟩

theorem stack_writes_nested_form_three :
    ∃ written, Arena.Writes toString ⟨#[.leaf (3 : Int) [(1, 1), (2, 4)], .leaf 1 [],
        .factor 0 2 0 (some 1)]⟩ [.node 2] written "x_1^2 [ x_2^1 x_3^4 [ 3 ] ] + 1" ∧
      (written.filterMap Piece.index?).Perm [0, 1, 2] := by
  have accepted : Arena.ofNodes #[.leaf (3 : Int) [(1, 1), (2, 4)], .leaf 1 [],
      .factor 0 2 0 (some 1)] = .ok ⟨#[.leaf 3 [(1, 1), (2, 4)], .leaf 1 [],
        .factor 0 2 0 (some 1)]⟩ := by decide
  rcases stack_writes_nested_form toString accepted with ⟨nest, written, found, writes, each, text⟩
  have printed : Arena.text toString ⟨#[.leaf (3 : Int) [(1, 1), (2, 4)], .leaf 1 [],
      .factor 0 2 0 (some 1)]⟩ = "x_1^2 [ x_2^1 x_3^4 [ 3 ] ] + 1" := by decide +kernel
  rw [← text, printed] at writes
  exact ⟨written, writes, each⟩

end NestedPoly
