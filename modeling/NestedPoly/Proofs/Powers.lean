import Mathlib
import NestedPoly.Scalar

/-! Repeated squaring gives the powers of any monoid.

The loop is told once more as a run over exponents of 32 bits, where the lowest digit is read by a mask
and taken away by a shift. A round keeps `result * base ^ exponent`, so that the run ends with the power,
and it ends after at most as many rounds as the exponent has digits. -/

namespace NestedPoly

variable {M : Type} [Monoid M]

/-- What is kept by a round, whether or not the base is squared for a next one. -/
theorem round_keeps (result base : M) (exponent : Nat) :
    (if exponent % 2 = 1 then result * base else result) *
        (if exponent / 2 = 0 then base else base * base) ^ (exponent / 2) =
      result * base ^ exponent := by
  have squared : (if exponent / 2 = 0 then base else base * base) ^ (exponent / 2) =
      base ^ (2 * (exponent / 2)) := by
    split
    · rename_i last
      rw [last, Nat.mul_zero, pow_zero]
    · rw [← pow_two, ← pow_mul]
  rw [squared]
  rcases Nat.mod_two_eq_zero_or_one exponent with even | odd
  · have whole : 2 * (exponent / 2) = exponent := by omega
    rw [if_neg (by omega), whole]
  · have whole : 2 * (exponent / 2) + 1 = exponent := by omega
    rw [if_pos odd]
    calc result * base * base ^ (2 * (exponent / 2))
      _ = result * base ^ (2 * (exponent / 2) + 1) := by rw [mul_assoc, ← pow_succ']
      _ = result * base ^ exponent := by rw [whole]

theorem powerLoop_eq (result base : M) (exponent : Nat) :
    powerLoop result base exponent = result * base ^ exponent := by
  induction exponent using Nat.strong_induction_on generalizing result base with
  | _ exponent ih =>
      rw [powerLoop]
      split
      · rename_i zero
        rw [zero, pow_zero, mul_one]
      · dsimp only
        rw [ih (exponent / 2) (by omega), round_keeps]

theorem power_eq_pow (base : M) (exponent : Nat) : power base exponent = base ^ exponent := by
  unfold power
  split
  · exact (pow_zero base).symm
  · exact (pow_one base).symm
  · rw [powerLoop_eq, one_mul]

/-- Repeated squaring from `result` on, while the exponent has a digit left, and the number of
rounds. -/
inductive SquaringRun : M → M → UInt32 → Nat → M → Prop where
  | done {result base : M} {exponent : UInt32} (spent : ¬ 0 < exponent) :
      SquaringRun result base exponent 0 result
  | round {result base value : M} {exponent : UInt32} {rounds : Nat} (left : 0 < exponent)
      (further : SquaringRun (if exponent &&& 1 = 1 then result * base else result)
        (if (0 : UInt32) < exponent >>> 1 then base * base else base) (exponent >>> 1) rounds value) :
      SquaringRun result base exponent (rounds + 1) value

inductive PowerRun (base : M) (exponent : UInt32) : Nat → M → Prop where
  | zeroth (zero : exponent = 0) : PowerRun base exponent 0 1
  | first (one : exponent = 1) : PowerRun base exponent 0 base
  | squaring {rounds : Nat} {value : M} (nonzero : exponent ≠ 0) (several : exponent ≠ 1)
      (run : SquaringRun 1 base exponent rounds value) : PowerRun base exponent rounds value

theorem toNat_half (exponent : UInt32) : (exponent >>> 1).toNat = exponent.toNat / 2 := by
  rw [UInt32.toNat_shiftRight]
  exact Nat.shiftRight_one exponent.toNat

theorem lowest_digit_iff (exponent : UInt32) : exponent &&& 1 = 1 ↔ exponent.toNat % 2 = 1 := by
  rw [← UInt32.toNat_inj, UInt32.toNat_and]
  exact iff_of_eq (congrArg (· = 1) (Nat.and_one_is_mod exponent.toNat))

theorem half_pos_iff (exponent : UInt32) :
    (0 : UInt32) < exponent >>> 1 ↔ ¬ exponent.toNat / 2 = 0 := by
  rw [UInt32.lt_iff_toNat_lt, toNat_half]
  exact Nat.pos_iff_ne_zero

theorem SquaringRun.value_eq {result base value : M} {exponent : UInt32} {rounds : Nat}
    (run : SquaringRun result base exponent rounds value) :
    value = result * base ^ exponent.toNat := by
  induction run with
  | @done result base exponent spent =>
      have zero : exponent.toNat = 0 := by
        rw [UInt32.lt_iff_toNat_lt] at spent
        exact Nat.eq_zero_of_not_pos spent
      rw [zero, pow_zero, mul_one]
  | @round result base value exponent rounds left further ih =>
      rw [ih, toNat_half, ← round_keeps result base exponent.toNat]
      simp only [lowest_digit_iff, half_pos_iff, ite_not]

theorem exists_squaringRun {digits : Nat} {exponent : UInt32} (result base : M)
    (within : exponent.toNat < 2 ^ digits) :
    ∃ rounds ≤ digits, ∃ value, SquaringRun result base exponent rounds value := by
  induction digits generalizing result base exponent with
  | zero =>
      have spent : ¬ 0 < exponent := by
        rw [UInt32.lt_iff_toNat_lt]
        change ¬ 0 < exponent.toNat
        omega
      exact ⟨0, Nat.le_refl 0, result, .done spent⟩
  | succ digits ih =>
      by_cases left : 0 < exponent
      · have half : (exponent >>> 1).toNat < 2 ^ digits := by
          rw [toNat_half]
          omega
        rcases ih _ _ half with ⟨rounds, le, value, run⟩
        exact ⟨rounds + 1, Nat.succ_le_succ le, value, .round left run⟩
      · exact ⟨0, Nat.zero_le _, result, .done left⟩

theorem PowerRun.value_eq {base value : M} {exponent : UInt32} {rounds : Nat}
    (run : PowerRun base exponent rounds value) : value = base ^ exponent.toNat := by
  cases run with
  | zeroth zero =>
      rw [zero]
      exact (pow_zero base).symm
  | first one =>
      rw [one]
      exact (pow_one base).symm
  | squaring _ _ run => rw [run.value_eq, one_mul]

theorem exists_powerRun (base : M) (exponent : UInt32) :
    ∃ rounds ≤ 32, ∃ value, PowerRun base exponent rounds value := by
  by_cases zero : exponent = 0
  · exact ⟨0, by decide, 1, .zeroth zero⟩
  · by_cases one : exponent = 1
    · exact ⟨0, by decide, base, .first one⟩
    · rcases exists_squaringRun 1 base exponent.toNat_lt with ⟨rounds, le, value, run⟩
      exact ⟨rounds, le, value, .squaring zero one run⟩

/-- For every exponent of 32 bits repeated squaring ends, within 32 rounds, with the product of as many
copies of the base as the exponent says. It is one for the exponent zero, whatever the base. -/
theorem power_is_repeated_product (base : M) (exponent : UInt32) :
    (∃ rounds ≤ 32, PowerRun base exponent rounds (power base exponent.toNat)) ∧
    (∀ rounds value, PowerRun base exponent rounds value → value = power base exponent.toNat) ∧
    power base exponent.toNat = (List.replicate exponent.toNat base).prod ∧
    power base 0 = 1 := by
  have same : ∀ rounds value, PowerRun base exponent rounds value →
      value = power base exponent.toNat := by
    intro rounds value run
    rw [power_eq_pow, run.value_eq]
  refine ⟨?_, same, ?_, (power_eq_pow base 0).trans (pow_zero base)⟩
  · rcases exists_powerRun base exponent with ⟨rounds, le, value, run⟩
    exact ⟨rounds, le, same rounds value run ▸ run⟩
  · rw [power_eq_pow, List.prod_replicate]

end NestedPoly
