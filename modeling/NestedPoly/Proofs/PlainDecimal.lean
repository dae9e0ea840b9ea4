import Mathlib
import NestedPoly.Decimal.Text
import NestedPoly.Proofs.Tokens

namespace NestedPoly.Decimal

def Plain (text : List Char) : Prop := ∀ c ∈ text, c ∉ reservedChars

theorem plain_append {first second : List Char} :
    Plain (first ++ second) ↔ Plain first ∧ Plain second := List.forall_mem_append

theorem Plain.take {text : List Char} (plain : Plain text) (count : Nat) : Plain (text.take count) :=
  fun c member => plain c (List.mem_of_mem_take member)

theorem Plain.drop {text : List Char} (plain : Plain text) (count : Nat) : Plain (text.drop count) :=
  fun c member => plain c (List.mem_of_mem_drop member)

theorem plain_replicate {c : Char} (free : c ∉ reservedChars) (count : Nat) :
    Plain (List.replicate count c) := by
  intro other member
  rwa [List.eq_of_mem_replicate member]

theorem plain_natRepr (n : Nat) : Plain n.repr.toList := by
  intro c member reserved
  have digit := isDigit_of_mem_repr member
  have none : ∀ c ∈ reservedChars, c.isDigit = false := by simp [reservedChars]
  rw [none c reserved] at digit
  contradiction

theorem plain_intRepr (n : Int) : Plain n.repr.toList := by
  cases n with
  | ofNat n => exact plain_natRepr n
  | negSucc n =>
      have minus : Plain "-".toList := by simp [Plain, reservedChars]
      rw [Int.repr, String.toList_append, plain_append]
      exact ⟨minus, plain_natRepr _⟩

theorem plain_positional {digits : String} (plain : Plain digits.toList) (leading : Int) :
    Plain (positional digits leading).toList := by
  have free : '0' ∉ reservedChars := by decide
  have zero : Plain "0".toList := by simp [Plain, reservedChars]
  have point : Plain ".".toList := by simp [Plain, reservedChars]
  have below : Plain "0.".toList := by simp [Plain, reservedChars]
  unfold positional
  split
  · simp only [String.toList_append, String.toList_ofList, plain_append]
    exact ⟨⟨below, plain_replicate free _⟩, plain⟩
  · have padded := plain_append.mpr ⟨plain, plain_replicate free (leading.toNat + 1 - digits.length)⟩
    simp only [String.toList_append, String.toList_ofList, plain_append]
    refine ⟨⟨padded.take _, point⟩, ?_⟩
    split
    · exact zero
    · rw [String.toList_ofList]
      exact padded.drop _

theorem plain_scientific {digits : String} (plain : Plain digits.toList) (leading : Int) :
    Plain (scientific digits leading).toList := by
  have point : Plain ".".toList := by simp [Plain, reservedChars]
  have scale : Plain "e".toList := by simp [Plain, reservedChars]
  unfold scientific
  simp only [String.toList_append, String.toList_ofList, plain_append]
  refine ⟨⟨⟨plain.take 1, ?_⟩, scale⟩, plain_intRepr leading⟩
  split
  · simp [Plain]
  · simp only [String.toList_append, String.toList_ofList, plain_append]
    exact ⟨point, plain.drop 1⟩

theorem plain_scientificText (decimal : Scientific) : Plain decimal.text.toList := by
  have digits := plain_natRepr decimal.digits
  unfold Scientific.text
  dsimp only
  split
  · exact plain_positional digits _
  · exact plain_scientific digits _

theorem plain_text (x : Float) : Plain (text x).toList := by
  have minus : Plain "-".toList := by simp [Plain, reservedChars]
  have magnitude (bits : UInt64) : Plain (if exponentField bits = 2047 then "inf"
      else if exponentField bits = 0 ∧ fractionField bits = 0 then "0.0"
      else (Dyadic.ofBits bits).shortest.normalize.text).toList := by
    split
    · simp [Plain, reservedChars]
    · split
      · simp [Plain, reservedChars]
      · exact plain_scientificText _
  unfold text
  dsimp only
  split
  · simp [Plain, reservedChars]
  · split
    · exact magnitude _
    · rw [String.toList_append, plain_append]
      exact ⟨minus, magnitude _⟩

def plainText (x : Float) : PlainText := ⟨text x, plain_text x⟩

end NestedPoly.Decimal
