import Mathlib
import NestedPoly.Proofs.Primes

/-! Trial division finds every prime, and the table leaves none out.

At a prime only a square above it ends the search, and squares are taken in 64 bits, where they may
wrap. All the same the search never comes as far as the prime itself: below it lies an odd number whose
square, wrapped or not, is above it. -/

namespace NestedPoly

theorem hasNoDivisorFrom_of_prime {n stop divisor : UInt64} (prime : n.toNat.Prime)
    (before : stop.toNat < n.toNat) (oddStop : stop.toNat % 2 = 1)
    (large : n.toNat < (stop * stop).toNat) (oddDivisor : divisor.toNat % 2 = 1)
    (three : 3 ≤ divisor.toNat) (within : divisor.toNat ≤ stop.toNat) :
    hasNoDivisorFrom n divisor = true := by
  induction divisor using hasNoDivisorFrom.induct n with
  | case1 divisor small divides =>
      have either := prime.eq_one_or_self_of_dvd _ (mod_eq_zero_iff.mp divides)
      omega
  | case2 divisor small indivisible inside ih =>
      rw [hasNoDivisorFrom]
      simp only [small, indivisible, inside, if_true, if_false, dite_true, and_self]
      have earlier : divisor.toNat ≠ stop.toNat := by
        intro equal
        rw [UInt64.toNat_inj.mp equal, UInt64.le_iff_toNat_le] at small
        omega
      have step := toNat_add_two (lt_add_two_iff.mp inside.1)
      exact ih (by omega) (by omega) (by omega)
  | case3 divisor small indivisible outside =>
      rw [hasNoDivisorFrom]
      simp only [small, indivisible, outside, if_true, if_false, dite_false]
  | case4 divisor large =>
      rw [hasNoDivisorFrom]
      simp only [large, if_false]

theorem prime_lt_last {p : Nat} (prime : p.Prime) (odd : p % 2 = 1) (small : p < UInt64.size) :
    p < UInt64.size - 7 := by
  have undivided (d : Nat) (two : 2 ≤ d) (less : d < p) : ¬ d ∣ p := by
    intro divides
    have either := prime.eq_one_or_self_of_dvd d divides
    omega
  by_contra last
  have size : UInt64.size = 18446744073709551616 := rfl
  have either : p = 18446744073709551609 ∨ p = 18446744073709551611 ∨
      p = 18446744073709551613 ∨ p = 18446744073709551615 := by
    omega
  rcases either with rfl | rfl | rfl | rfl
  · exact undivided 3 (by omega) (by omega) (by decide)
  · exact undivided 11 (by omega) (by omega) (by decide)
  · exact undivided 13 (by omega) (by omega) (by decide)
  · exact undivided 3 (by omega) (by omega) (by decide)

/-- Below an odd prime there is an odd number with a square, taken in 64 bits, above the prime. It is
one of 32 bits if the square of such a number can be above the prime. -/
theorem exists_stop {n : UInt64} (prime : n.toNat.Prime) (five : 5 ≤ n.toNat)
    (odd : n.toNat % 2 = 1) :
    ∃ stop : UInt64, 3 ≤ stop.toNat ∧ stop.toNat < n.toNat ∧ stop.toNat % 2 = 1 ∧
      n.toNat < (stop * stop).toNat ∧
      (n.toNat < (2 ^ 32 - 1) * (2 ^ 32 - 1) → stop.toNat < 2 ^ 32) := by
  have last := prime_lt_last prime odd n.toNat_lt
  by_cases small : n.toNat < 2 ^ 32
  · -- The square of the odd number before does not wrap.
    have two : (n - 2).toNat = n.toNat - 2 := by
      rw [UInt64.toNat_sub_of_le]
      · rfl
      · rw [UInt64.le_iff_toNat_le]
        change 2 ≤ n.toNat
        omega
    have fits : (n.toNat - 2) * (n.toNat - 2) < 2 ^ 64 := by
      calc (n.toNat - 2) * (n.toNat - 2)
        _ < 2 ^ 32 * 2 ^ 32 := Nat.mul_lt_mul'' (by omega) (by omega)
        _ = 2 ^ 64 := by norm_num
    have above : 3 * (n.toNat - 2) ≤ (n.toNat - 2) * (n.toNat - 2) :=
      Nat.mul_le_mul_right _ (by omega)
    refine ⟨n - 2, by omega, by omega, by omega, ?_, by omega⟩
    rw [UInt64.toNat_mul, two, Nat.mod_eq_of_lt fits]
    omega
  · by_cases medium : n.toNat < (2 ^ 32 - 1) * (2 ^ 32 - 1)
    · have square : ((4294967295 : UInt64) * 4294967295).toNat = (2 ^ 32 - 1) * (2 ^ 32 - 1) := by
        decide
      have stop : (4294967295 : UInt64).toNat = 2 ^ 32 - 1 := by decide
      exact ⟨4294967295, by omega, by omega, by omega, by omega, by omega⟩
    · -- Modulo `2 ^ 64` there is a root of `-7`, and the primes of 64 bits are below `2 ^ 64 - 7`.
      have square : ((1852311383259529397 : UInt64) * 1852311383259529397).toNat =
          UInt64.size - 7 := by
        decide
      have stop : (1852311383259529397 : UInt64).toNat = 1852311383259529397 := by decide
      exact ⟨1852311383259529397, by omega, by omega, by omega, by omega, by omega⟩

theorem isPrime_of_prime {n : UInt64} (prime : n.toNat.Prime) : isPrime n = true := by
  have two : ¬ n < 2 := by
    rw [UInt64.lt_iff_toNat_lt]
    exact Nat.not_lt.mpr prime.two_le
  rw [isPrime, if_neg two]
  rcases prime.eq_two_or_odd with even | odd
  · have equal : n = 2 := UInt64.toNat_inj.mp even
    rw [equal]
    decide
  · have indivisible : ¬ n % 2 = 0 := by
      rw [mod_two_eq_zero_iff]
      omega
    rw [if_neg indivisible]
    have three : 3 ≤ n.toNat := by
      have := prime.two_le
      omega
    rcases Nat.eq_or_lt_of_le three with equal | more
    · have equal : n = 3 := UInt64.toNat_inj.mp equal.symm
      rw [equal, hasNoDivisorFrom]
      decide
    · rcases exists_stop prime (by omega) odd with ⟨stop, least, before, oddStop, large, _⟩
      exact hasNoDivisorFrom_of_prime prime before oddStop large rfl (Nat.le_refl 3) least

theorem isPrime_iff {n : UInt64} : isPrime n = true ↔ n.toNat.Prime :=
  ⟨prime_of_isPrime, isPrime_of_prime⟩

noncomputable def primesBelow (bound : Nat) : List Nat :=
  (List.range (Nat.count Nat.Prime bound)).map (Nat.nth Nat.Prime)

theorem primesBelow_succ (n : Nat) :
    primesBelow (n + 1) = primesBelow n ++ if n.Prime then [n] else [] := by
  rw [primesBelow, Nat.count_succ]
  split
  · rename_i prime
    rw [List.range_succ, List.map_append, List.map_singleton, Nat.nth_count prime]
    rfl
  · rw [Nat.add_zero, List.append_nil]
    rfl

theorem toNat_withCandidate (candidate : UInt64) (found : Array UInt64) :
    (withCandidate candidate found).toList.map UInt64.toNat =
      found.toList.map UInt64.toNat ++
        if candidate.toNat.Prime then [candidate.toNat] else [] := by
  unfold withCandidate
  simp only [isPrime_iff]
  split
  · rw [Array.toList_push, List.map_append, List.map_singleton]
  · rw [List.append_nil]

theorem toNat_nextCandidate {candidate : UInt64}
    (grows : candidate < nextCandidate candidate) :
    (nextCandidate candidate).toNat = candidate.toNat + if candidate.toNat = 2 then 1 else 2 := by
  unfold nextCandidate at grows ⊢
  split
  · rename_i two
    rw [two]
    rfl
  · rename_i other
    have apart : candidate.toNat ≠ 2 := fun equal => other (UInt64.toNat_inj.mp equal)
    rw [if_neg other] at grows
    rw [if_neg apart]
    exact toNat_add_two (lt_add_two_iff.mp grows)

theorem le_of_not_grows {candidate : UInt64} (stuck : ¬ candidate < nextCandidate candidate) :
    UInt64.size ≤ candidate.toNat + 2 := by
  by_contra inside
  apply stuck
  rw [nextCandidate]
  split
  · rename_i two
    rw [two]
    decide
  · exact lt_add_two_iff.mpr (Nat.lt_of_not_le inside)

def MayBePrime (n : Nat) : Prop := n = 2 ∨ 2 < n ∧ n % 2 = 1

theorem primesBelow_even {n : Nat} (more : 2 < n) (even : n % 2 = 0) :
    primesBelow (n + 1) = primesBelow n := by
  have composite : ¬ n.Prime := by
    intro prime
    rcases prime.eq_two_or_odd with two | odd <;> omega
  rw [primesBelow_succ, if_neg composite, List.append_nil]

theorem primesBelow_next {candidate : UInt64} (start : MayBePrime candidate.toNat)
    (grows : candidate < nextCandidate candidate) :
    primesBelow (nextCandidate candidate).toNat = primesBelow (candidate.toNat + 1) := by
  rw [toNat_nextCandidate grows]
  rcases start with two | ⟨more, odd⟩
  · rw [if_pos two]
  · rw [if_neg (by omega)]
    exact primesBelow_even (by omega) (by omega)

theorem size_of_toNat {found : Array UInt64} {numbers : Nat}
    (listed : found.toList.map UInt64.toNat = (List.range numbers).map (Nat.nth Nat.Prime)) :
    found.size = numbers := by
  have lengths := congrArg List.length listed
  simpa using lengths

/-- The search has found all primes below the candidate. -/
structure Collected (candidate : UInt64) (found : Array UInt64) : Prop where
  start : MayBePrime candidate.toNat
  listed : found.toList.map UInt64.toNat = primesBelow candidate.toNat

theorem collected_start : Collected 2 #[] := by
  have count : Nat.count Nat.Prime 2 = 0 := by decide
  have none : primesBelow (2 : UInt64).toNat = [] := by
    rw [primesBelow, show (2 : UInt64).toNat = 2 from rfl, count]
    rfl
  exact ⟨.inl rfl, none.symm⟩

namespace Collected

variable {candidate : UInt64} {found : Array UInt64}

theorem size (collected : Collected candidate found) :
    found.size = Nat.count Nat.Prime candidate.toNat :=
  size_of_toNat collected.listed

theorem toNat_withCandidate (collected : Collected candidate found) :
    (withCandidate candidate found).toList.map UInt64.toNat =
      primesBelow (candidate.toNat + 1) := by
  rw [NestedPoly.toNat_withCandidate, collected.listed, primesBelow_succ]

theorem next (collected : Collected candidate found)
    (grows : candidate < nextCandidate candidate) :
    Collected (nextCandidate candidate) (withCandidate candidate found) := by
  have start := collected.start
  have step := toNat_nextCandidate grows
  constructor
  · unfold MayBePrime at start ⊢
    split at step <;> omega
  · rw [primesBelow_next start grows]
    exact collected.toNat_withCandidate

end Collected

theorem toNat_collectPrimes {count : Nat} {candidate : UInt64} {found : Array UInt64}
    (collected : Collected candidate found) (wanted : found.size ≤ count) :
    (collectPrimes count candidate found).toList.map UInt64.toNat =
      (List.range (min count (Nat.count Nat.Prime UInt64.size))).map (Nat.nth Nat.Prime) := by
  induction left : UInt64.size - candidate.toNat using Nat.strong_induction_on
    generalizing candidate found with
  | _ left ih =>
      have inside := candidate.toNat_lt_size
      have size := collected.size
      have extended := collected.toNat_withCandidate
      rw [collectPrimes_step]
      split
      · rename_i few
        have enough : (withCandidate candidate found).size ≤ count := by
          have one := Nat.count_succ Nat.Prime candidate.toNat
          rw [size_of_toNat extended]
          split at one <;> omega
        split
        · rename_i grows
          have ahead := UInt64.lt_iff_toNat_lt.mp grows
          exact ih _ (by omega) (collected.next grows) enough rfl
        · rename_i stuck
          -- The candidate is the last odd number of 64 bits, so that no prime is missing.
          have last := le_of_not_grows stuck
          have ending : candidate.toNat + 1 = UInt64.size := by
            have whole : UInt64.size = 2 ^ 64 := rfl
            have start := collected.start
            unfold MayBePrime at start
            omega
          rw [ending] at extended
          rw [size_of_toNat extended] at enough
          rw [Nat.min_eq_right enough]
          exact extended
      · have fewer : Nat.count Nat.Prime candidate.toNat ≤ Nat.count Nat.Prime UInt64.size :=
          Nat.count_monotone _ (Nat.le_of_lt inside)
        have full : min count (Nat.count Nat.Prime UInt64.size) =
            Nat.count Nat.Prime candidate.toNat := by
          omega
        rw [full]
        exact collected.listed

theorem toNat_smallestPrimes (count : Nat) :
    (smallestPrimes count).toList.map UInt64.toNat =
      (List.range (min count (Nat.count Nat.Prime UInt64.size))).map (Nat.nth Nat.Prime) :=
  toNat_collectPrimes collected_start (Nat.zero_le count)

theorem size_smallestPrimes (count : Nat) :
    (smallestPrimes count).size = min count (Nat.count Nat.Prime UInt64.size) :=
  size_of_toNat (toNat_smallestPrimes count)

end NestedPoly
