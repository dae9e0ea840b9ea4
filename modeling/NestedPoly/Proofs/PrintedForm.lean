import Mathlib
import NestedPoly.Proofs.Origin
import NestedPoly.Proofs.PlainDecimal

/-! What the printed form tells.

A leaf with one power is printed as the power of a constant. Written as one, a nested form can be
read off its tokens: where brackets end is told by the form inside them, and a sum belongs to the
innermost brackets that it stands in. So the text tells the terms that the form adds up to. -/

namespace NestedPoly

open Token (scalar factor opening closing plus bracketed)

theorem bracketed_append (tokens rest : List Token) :
    bracketed tokens ++ rest = opening :: (tokens ++ closing :: rest) := by
  simp [bracketed]

/-- The first token that is no power tells where the powers end. -/
theorem factors_append_inj {first second : List (Nat × Nat)} {rest others : List Token} :
    first.map factor ++ opening :: rest = second.map factor ++ opening :: others ↔
      first = second ∧ rest = others := by
  induction first generalizing second with
  | nil => cases second <;> simp
  | cons power first ih =>
      cases second with
      | nil => simp
      | cons other second => simp [ih, and_assoc]

namespace Nest

variable {α β : Type}

/-- The form with every leaf of one power written as the power of a constant. -/
def opened : Nest α → Nest α
  | leaf coefficient [(var, power)] => scaled var power (leaf coefficient [])
  | leaf coefficient powers => leaf coefficient powers
  | scaled var power factored => scaled var power factored.opened
  | joined var power factored rest => joined var power factored.opened rest.opened

theorem tokens_opened (nest : Nest PlainText) : nest.opened.tokens = nest.tokens := by
  induction nest with
  | leaf coefficient powers =>
      match powers with
      | [] | [_] | _ :: _ :: _ => rfl
  | scaled var power factored ih => rw [opened, tokens, ih, tokens]
  | joined var power factored rest innerIh outerIh =>
      rw [opened, tokens, innerIh, outerIh, tokens]

theorem expand_opened (nest : Nest α) : nest.opened.expand = nest.expand := by
  induction nest with
  | leaf coefficient powers =>
      match powers with
      | [] | [_] | _ :: _ :: _ => rfl
  | scaled var power factored ih => rw [opened, expand, ih, expand]
  | joined var power factored rest innerIh outerIh =>
      rw [opened, expand, innerIh, outerIh, expand]

inductive Opened : Nest α → Prop where
  | constant (coefficient : α) : Opened (leaf coefficient [])
  | product (coefficient : α) (first second : Nat × Nat) (powers : List (Nat × Nat)) :
      Opened (leaf coefficient (first :: second :: powers))
  | scaled {var power : Nat} {factored : Nest α} (inner : Opened factored) :
      Opened (scaled var power factored)
  | joined {var power : Nat} {factored rest : Nest α} (inner : Opened factored)
      (outer : Opened rest) : Opened (joined var power factored rest)

theorem opened_opened (nest : Nest α) : nest.opened.Opened := by
  induction nest with
  | leaf coefficient powers =>
      match powers with
      | [] => exact Opened.constant coefficient
      | [_] => exact Opened.scaled (Opened.constant coefficient)
      | first :: second :: powers => exact Opened.product coefficient first second powers
  | scaled var power factored ih => exact Opened.scaled ih
  | joined var power factored rest innerIh outerIh => exact Opened.joined innerIh outerIh

theorem tokens_scaled_append (var power : Nat) (factored : Nest PlainText) (rest : List Token) :
    (scaled var power factored).tokens ++ rest =
      factor (var, power) :: opening :: (factored.tokens ++ closing :: rest) := by
  rw [tokens, List.cons_append, bracketed_append]

theorem tokens_joined_append (var power : Nat) (factored outside : Nest PlainText)
    (rest : List Token) : (joined var power factored outside).tokens ++ rest =
      factor (var, power) :: opening ::
        (factored.tokens ++ closing :: plus :: (outside.tokens ++ rest)) := by
  rw [tokens, List.cons_append, List.append_assoc, bracketed_append, List.cons_append]

theorem tokens_append_inj {first second : Nest PlainText} {rest others : List Token}
    (firstOpened : first.Opened) (secondOpened : second.Opened) (ends : rest.head? ≠ some plus)
    (alsoEnds : others.head? ≠ some plus) (same : first.tokens ++ rest = second.tokens ++ others) :
    first = second ∧ rest = others := by
  have closes (more : List Token) : (closing :: more).head? ≠ some plus := by simp
  induction firstOpened generalizing second rest others with
  | constant coefficient =>
      cases secondOpened with
      | constant other => simpa [tokens] using same
      | product | scaled | joined => simp [tokens] at same
  | product coefficient one two powers =>
      cases secondOpened with
      | product other oneMore twoMore more =>
          rw [tokens_leaf, tokens_leaf, List.append_assoc, List.append_assoc, bracketed_append,
            bracketed_append, factors_append_inj] at same
          simp_all
      | constant | scaled | joined => simp [tokens, bracketed] at same
  | @scaled var power factored inner ih =>
      cases secondOpened with
      | @scaled otherVar otherPower other otherInner =>
          rw [tokens_scaled_append, tokens_scaled_append, List.cons.injEq, List.cons.injEq] at same
          have parts := ih otherInner (closes _) (closes _) same.2.2
          cases same.1
          cases parts.1
          exact ⟨rfl, (List.cons.inj parts.2).2⟩
      | @joined otherVar otherPower other otherOutside otherInner otherOuter =>
          rw [tokens_scaled_append, tokens_joined_append, List.cons.injEq, List.cons.injEq] at same
          have parts := ih otherInner (closes _) (closes _) same.2.2
          -- One form goes on with a sum where the other one ends.
          rw [(List.cons.inj parts.2).2] at ends
          contradiction
      | constant | product => simp [tokens, bracketed] at same
  | @joined var power factored outside inner outer innerIh outerIh =>
      cases secondOpened with
      | @joined otherVar otherPower other otherOutside otherInner otherOuter =>
          rw [tokens_joined_append, tokens_joined_append, List.cons.injEq, List.cons.injEq] at same
          have parts := innerIh otherInner (closes _) (closes _) same.2.2
          rw [List.cons.injEq, List.cons.injEq] at parts
          have sums := outerIh otherOuter ends alsoEnds parts.2.2.2
          cases same.1
          cases parts.1
          cases sums.1
          exact ⟨rfl, sums.2⟩
      | @scaled otherVar otherPower other otherInner =>
          rw [tokens_joined_append, tokens_scaled_append, List.cons.injEq, List.cons.injEq] at same
          have parts := innerIh otherInner (closes _) (closes _) same.2.2
          rw [← (List.cons.inj parts.2).2] at alsoEnds
          contradiction
      | constant | product => simp [tokens, bracketed] at same

theorem opened_eq_of_text {first second : Nest α} (scalarText : α → PlainText)
    (same : first.text (fun coefficient => (scalarText coefficient).text) =
      second.text fun coefficient => (scalarText coefficient).text) :
    (first.map scalarText).opened = (second.map scalarText).opened := by
  rw [text_eq_row, text_eq_row] at same
  have tokens := Token.row_inj (tokens_ne_nil _) (tokens_ne_nil _) same
  rw [← tokens_opened, ← tokens_opened (second.map scalarText)] at tokens
  have opened := @tokens_append_inj _ _ [] [] (opened_opened (first.map scalarText))
    (opened_opened (second.map scalarText)) nofun nofun
  rw [List.append_nil, List.append_nil] at opened
  exact (opened tokens).1

/-- The terms that a form adds up to, in no order: the text of each coefficient with the total exponent
of every variable. -/
def printedTerms (scalarText : α → String) (nest : Nest α) : Multiset (String × (Nat → Nat)) :=
  ↑(nest.expand.map fun (coefficient, powers) => (scalarText coefficient, totalExponent powers))

theorem printedTerms_opened (scalarText : α → PlainText) (nest : Nest α) :
    (nest.map scalarText).opened.printedTerms PlainText.text =
      nest.printedTerms fun coefficient => (scalarText coefficient).text := by
  rw [printedTerms, expand_opened, expand_map, List.map_map]
  rfl

theorem printedTerms_eq_of_text {first second : Nest α} (scalarText : α → PlainText)
    (same : first.text (fun coefficient => (scalarText coefficient).text) =
      second.text fun coefficient => (scalarText coefficient).text) :
    first.printedTerms (fun coefficient => (scalarText coefficient).text) =
      second.printedTerms fun coefficient => (scalarText coefficient).text := by
  rw [← printedTerms_opened, opened_eq_of_text scalarText same, printedTerms_opened]

end Nest

/-- Nested forms with the same text add up to the same terms, wherever they come from. -/
theorem printed_form_determines_terms (scalarText : Float → PlainText)
    {first second : NestedForm Float} (firstObtained : first.Obtained)
    (secondObtained : second.Obtained)
    (same : first.arena.text (fun coefficient => (scalarText coefficient).text) =
      second.arena.text fun coefficient => (scalarText coefficient).text) :
    ∃ nest other, first.arena.nest? = some nest ∧ second.arena.nest? = some other ∧
      nest.printedTerms (fun coefficient => (scalarText coefficient).text) =
        other.printedTerms fun coefficient => (scalarText coefficient).text := by
  have tree := (NestedForm.sound_of_obtained firstObtained).arena.tree
  have otherTree := (NestedForm.sound_of_obtained secondObtained).arena.tree
  rcases Arena.exists_nest?_of_oneTree tree with ⟨nest, found⟩
  rcases Arena.exists_nest?_of_oneTree otherTree with ⟨other, alsoFound⟩
  rw [Arena.text_eq_of_oneTree tree found, Arena.text_eq_of_oneTree otherTree alsoFound] at same
  exact ⟨nest, other, found, alsoFound, Nest.printedTerms_eq_of_text scalarText same⟩

theorem printed_form_determines_terms_three :
    ∃ first second : Array (Node Float),
      first = #[.leaf 3 [(1, 0)], .leaf 5 [], .factor 0 2 0 (some 1)] ∧
      second = #[.leaf 3 [], .factor 1 0 0 none, .leaf 5 [], .factor 0 2 1 (some 2)] ∧
      (NestedForm.ofArena ⟨first⟩ 2 true).Obtained ∧
      (NestedForm.ofArena ⟨second⟩ 2 true).Obtained ∧
      Arena.text Decimal.text ⟨first⟩ = Arena.text Decimal.text ⟨second⟩ ∧
      ∃ nest other, Arena.nest? ⟨first⟩ = some nest ∧ Arena.nest? ⟨second⟩ = some other ∧
        nest.printedTerms Decimal.text = other.printedTerms Decimal.text := by
  have obtained (nodes : Array (Node Float)) (fits : ∀ node ∈ nodes, node.Fits)
      (accepted : Arena.ofNodes nodes = .ok ⟨nodes⟩)
      (wrapped : NestedForm.ofArena? ⟨nodes⟩ 2 true = .ok (.ofArena ⟨nodes⟩ 2 true)) :
      (NestedForm.ofArena ⟨nodes⟩ 2 true).Obtained :=
    .wrapped (.accepted fits accepted) (by decide) wrapped
  have first := obtained #[.leaf 3 [(1, 0)], .leaf 5 [], .factor 0 2 0 (some 1)] (by decide)
    (by cbv) (by cbv)
  have second := obtained #[.leaf 3 [], .factor 1 0 0 none, .leaf 5 [], .factor 0 2 1 (some 2)]
    (by decide) (by cbv) (by cbv)
  have same : Arena.text Decimal.text ⟨#[.leaf 3 [(1, 0)], .leaf 5 [], .factor 0 2 0 (some 1)]⟩ =
      Arena.text Decimal.text
        ⟨#[.leaf 3 [], .factor 1 0 0 none, .leaf 5 [], .factor 0 2 1 (some 2)]⟩ := by
    simp [Arena.text, Arena.writePieces, Arena.writePiece, Arena.root, Arena.size, Node.leafText,
      appendPowers, toString, String.append_assoc]
  exact ⟨_, _, rfl, rfl, first, second, same,
    printed_form_determines_terms Decimal.plainText first second same⟩

end NestedPoly
