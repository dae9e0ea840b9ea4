import Mathlib
import NestedPoly.Proofs.Printing

/-! The printed form as a row of tokens.

Tokens are set off by blanks and contain none, as long as the coefficients contain none. So the text
tells its tokens, and each token tells what it stands for. -/

namespace NestedPoly

def reservedChars : List Char := [' ', '[', ']', '+', 'x']

structure PlainText where
  text : String
  plain : ∀ c ∈ text.toList, c ∉ reservedChars

inductive Token where
  | factor (power : Nat × Nat)
  | opening
  | closing
  | plus
  | scalar (coefficient : PlainText)

def Token.text : Token → String
  | .factor power => powerText power
  | .opening => "["
  | .closing => "]"
  | .plus => "+"
  | .scalar coefficient => coefficient.text

theorem not_mem_digits {n : Nat} {c : Char} (other : c.isDigit = false) :
    c ∉ Nat.toDigits 10 n := by
  intro member
  have digit := Nat.isDigit_of_mem_toDigits (by decide) (by decide) member
  rw [other] at digit
  contradiction

theorem toList_powerText (power : Nat × Nat) : (powerText power).toList =
    'x' :: '_' :: (Nat.toDigits 10 (power.1 + 1) ++ '^' :: Nat.toDigits 10 power.2) := by
  simp [powerText_eq, Nat.toList_repr]

theorem toDigits_inj {m n : Nat} : Nat.toDigits 10 m = Nat.toDigits 10 n ↔ m = n := by
  rw [← Nat.toList_repr, ← Nat.toList_repr, String.toList_inj, Nat.repr_inj]

theorem powerText_injective : Function.Injective powerText := by
  intro first second same
  have characters := congrArg String.toList same
  simp only [toList_powerText, List.cons.injEq, true_and] at characters
  rw [List.append_cons_inj_of_notMem (not_mem_digits rfl) (not_mem_digits rfl)] at characters
  have vars := toDigits_inj.mp characters.1
  have exponents := toDigits_inj.mp characters.2.2
  exact Prod.ext (by omega) exponents

theorem blank_not_mem_powerText (power : Nat × Nat) : ' ' ∉ (powerText power).toList := by
  have blank (n : Nat) : ' ' ∉ Nat.toDigits 10 n := not_mem_digits rfl
  simp [toList_powerText, blank]

namespace Token

theorem blank_not_mem_text (token : Token) : ' ' ∉ token.text.toList := by
  cases token with
  | factor power => exact blank_not_mem_powerText power
  | scalar coefficient =>
      intro member
      exact coefficient.plain ' ' member (by decide)
  | opening | closing | plus => simp [text]

def mark? : Token → Option Char
  | .factor _ => some 'x'
  | .opening => some '['
  | .closing => some ']'
  | .plus => some '+'
  | .scalar _ => none

theorem mark?_eq (token : Token) :
    token.mark? = token.text.toList.head?.filter (· ∈ reservedChars) := by
  cases token with
  | factor power => simp [mark?, text, toList_powerText, reservedChars, Option.filter]
  | opening | closing | plus => simp [mark?, text, reservedChars, Option.filter]
  | scalar coefficient =>
      refine (Option.filter_eq_none_iff.mpr ?_).symm
      intro c first
      have plain := coefficient.plain c (List.mem_of_head? first)
      simpa using plain

theorem text_injective : Function.Injective text := by
  intro first second same
  have marks : first.mark? = second.mark? := by rw [mark?_eq, mark?_eq, same]
  cases first with
  | factor power =>
      cases second with
      | factor other => exact congrArg factor (powerText_injective same)
      | _ => simp [mark?] at marks
  | scalar coefficient =>
      cases second with
      | scalar other =>
          rw [scalar.injEq, PlainText.mk.injEq]
          exact same
      | _ => simp [mark?] at marks
  | opening =>
      cases second with
      | opening => rfl
      | _ => simp [mark?] at marks
  | closing =>
      cases second with
      | closing => rfl
      | _ => simp [mark?] at marks
  | plus =>
      cases second with
      | plus => rfl
      | _ => simp [mark?] at marks

def row (tokens : List Token) : String := String.intercalate " " (tokens.map text)

theorem toList_row (tokens : List Token) :
    (row tokens).toList = [' '].intercalate (tokens.map (String.toList ∘ text)) := by
  rw [row, String.toList_intercalate, List.map_map]
  rfl

theorem row_singleton (token : Token) : row [token] = token.text := String.intercalate_singleton

theorem row_append {first second : List Token} (present : first ≠ []) (alsoPresent : second ≠ []) :
    row (first ++ second) = row first ++ " " ++ row second := by
  rw [row, List.map_append, String.intercalate_append_of_ne_nil]
  · rfl
  · simpa using present
  · simpa using alsoPresent

theorem row_cons (token : Token) {tokens : List Token} (present : tokens ≠ []) :
    row (token :: tokens) = token.text ++ " " ++ row tokens := by
  rw [← List.singleton_append, row_append (List.cons_ne_nil _ _) present, row_singleton]

theorem row_map_factor (powers : List (Nat × Nat)) :
    row (powers.map factor) = String.intercalate " " (powers.map powerText) := by
  rw [row, List.map_map]
  rfl

/-- A row tells its tokens, since none of them has a blank. -/
theorem row_inj {first second : List Token} (present : first ≠ []) (alsoPresent : second ≠ [])
    (same : row first = row second) : first = second := by
  have split {tokens : List Token} (present : tokens ≠ []) :
      (row tokens).toList.splitOn ' ' = tokens.map (String.toList ∘ text) := by
    rw [toList_row]
    apply List.splitOn_intercalate
    · simpa using fun token _ => token.blank_not_mem_text
    · simpa using present
  have parts : first.map (String.toList ∘ text) = second.map (String.toList ∘ text) := by
    rw [← split present, ← split alsoPresent, same]
  have injective : Function.Injective (String.toList ∘ text) := by
    intro token other alike
    exact text_injective (String.toList_inj.mp alike)
  exact List.map_injective_iff.mpr injective parts

def bracketed (tokens : List Token) : List Token := opening :: (tokens ++ [closing])

theorem bracketed_ne_nil (tokens : List Token) : bracketed tokens ≠ [] := List.cons_ne_nil _ _

theorem row_bracketed {tokens : List Token} (present : tokens ≠ []) :
    row (bracketed tokens) = "[ " ++ row tokens ++ " ]" := by
  rw [bracketed, row_cons _ (List.append_ne_nil_of_left_ne_nil present _),
    row_append present (List.cons_ne_nil _ _), row_singleton]
  apply String.toList_inj.mp
  simp [text]

end Token

namespace Nest

variable {α β : Type}

def map (f : α → β) : Nest α → Nest β
  | leaf coefficient powers => leaf (f coefficient) powers
  | scaled var power factored => scaled var power (factored.map f)
  | joined var power factored rest => joined var power (factored.map f) (rest.map f)

theorem expand_map (f : α → β) (nest : Nest α) :
    (nest.map f).expand = nest.expand.map (Prod.map f id) := by
  induction nest with
  | leaf coefficient powers => rfl
  | scaled var power factored ih => simp [map, expand, ih]
  | joined var power factored rest innerIh outerIh => simp [map, expand, innerIh, outerIh]

open Token in
def tokens : Nest PlainText → List Token
  | leaf coefficient [] => [scalar coefficient]
  | leaf coefficient powers => powers.map factor ++ bracketed [scalar coefficient]
  | scaled var power factored => factor (var, power) :: bracketed factored.tokens
  | joined var power factored rest =>
    factor (var, power) :: (bracketed factored.tokens ++ plus :: rest.tokens)

theorem tokens_ne_nil (nest : Nest PlainText) : nest.tokens ≠ [] := by
  cases nest with
  | leaf coefficient powers => cases powers <;> simp [tokens]
  | scaled | joined => simp [tokens]

theorem tokens_leaf (coefficient : PlainText) (power : Nat × Nat) (powers : List (Nat × Nat)) :
    (leaf coefficient (power :: powers)).tokens =
      (power :: powers).map Token.factor ++ Token.bracketed [.scalar coefficient] := rfl

theorem text_eq_row (scalarText : α → PlainText) (nest : Nest α) :
    nest.text (fun coefficient => (scalarText coefficient).text) =
      Token.row (nest.map scalarText).tokens := by
  apply String.toList_inj.mp
  induction nest with
  | leaf coefficient powers =>
      cases powers with
      | nil =>
          rw [map, tokens, Token.row_singleton]
          rfl
      | cons power powers =>
          rw [map, tokens_leaf, Token.row_append (by simp) (Token.bracketed_ne_nil _),
            Token.row_map_factor, Token.row_bracketed (List.cons_ne_nil _ _), Token.row_singleton]
          simp [text, Token.text]
  | scaled var power factored ih =>
      rw [map, tokens, Token.row_cons _ (Token.bracketed_ne_nil _),
        Token.row_bracketed (tokens_ne_nil _)]
      simp [text, Token.text, ih]
  | joined var power factored rest innerIh outerIh =>
      rw [map, tokens, Token.row_cons _ (by simp), Token.row_append (Token.bracketed_ne_nil _)
        (List.cons_ne_nil _ _), Token.row_bracketed (tokens_ne_nil _),
        Token.row_cons _ (tokens_ne_nil _)]
      simp [text, Token.text, innerIh, outerIh]

end Nest

end NestedPoly
