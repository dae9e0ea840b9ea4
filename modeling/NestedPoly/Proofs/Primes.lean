import Mathlib
import NestedPoly.Primes

/-! Trial division accepts primes only, and the table of primes ascends.

Squares are taken in 64 bits and may wrap. A wrapped square only lets the search go on, so it never
makes a composite number look prime. -/

namespace NestedPoly

theorem mod_eq_zero_iff {n divisor : UInt64} : n % divisor = 0 ↔ divisor.toNat ∣ n.toNat := by
  rw [← UInt64.toNat_inj, UInt64.toNat_mod, Nat.dvd_iff_mod_eq_zero]
  rfl

theorem mod_two_eq_zero_iff {n : UInt64} : n % 2 = 0 ↔ n.toNat % 2 = 0 :=
  mod_eq_zero_iff.trans Nat.dvd_iff_mod_eq_zero

theorem toNat_add_two {n : UInt64} (inside : n.toNat + 2 < UInt64.size) :
    (n + 2).toNat = n.toNat + 2 := by
  rw [UInt64.toNat_add]
  exact Nat.mod_eq_of_lt inside

theorem lt_add_two_iff {n : UInt64} : n < n + 2 ↔ n.toNat + 2 < UInt64.size := by
  have word := n.toNat_lt
  rw [UInt64.lt_iff_toNat_lt, UInt64.toNat_add]
  change n.toNat < (n.toNat + 2) % 2 ^ 64 ↔ n.toNat + 2 < 2 ^ 64
  omega

theorem le_toNat_mul (a b : UInt64) : (a * b).toNat ≤ a.toNat * b.toNat := by
  rw [UInt64.toNat_mul]
  exact Nat.mod_le _ _

theorem prime_of_lt_sq {n bound : Nat} (two : 2 ≤ n) (least : bound ≤ n.minFac)
    (large : n < bound * bound) : n.Prime := by
  by_contra composite
  have small : bound * bound ≤ n := by
    calc bound * bound
      _ ≤ n.minFac * n.minFac := Nat.mul_le_mul least least
      _ = n.minFac ^ 2 := (Nat.pow_two _).symm
      _ ≤ n := Nat.minFac_sq_le_self (by omega) composite
  omega

theorem minFac_ne_of_not_dvd {n divisor : Nat} (indivisible : ¬ divisor ∣ n) :
    n.minFac ≠ divisor := by
  intro equal
  exact indivisible (equal ▸ n.minFac_dvd)

/-- The least factor of an odd number is odd, so the search may leave out even divisors. -/
theorem odd_minFac {n : Nat} (odd : n % 2 = 1) : n.minFac % 2 = 1 := by
  have divides : n.minFac ∣ n := n.minFac_dvd
  by_contra even
  have : 2 ∣ n := Nat.dvd_trans (Nat.dvd_of_mod_eq_zero (by omega)) divides
  omega

theorem prime_of_hasNoDivisorFrom (n divisor : UInt64) (two : 2 ≤ n.toNat)
    (oddNumber : n.toNat % 2 = 1) (oddDivisor : divisor.toNat % 2 = 1)
    (least : divisor.toNat ≤ n.toNat.minFac) (accepted : hasNoDivisorFrom n divisor = true) :
    n.toNat.Prime := by
  induction divisor using hasNoDivisorFrom.induct n with
  | case1 divisor small divides =>
      rw [hasNoDivisorFrom] at accepted
      simp [small, divides] at accepted
  | case2 divisor small indivisible inside ih =>
      rw [hasNoDivisorFrom] at accepted
      simp only [small, indivisible, inside, if_true, if_false, dite_true, and_self] at accepted
      have step := toNat_add_two (lt_add_two_iff.mp inside.1)
      have apart : n.toNat.minFac ≠ divisor.toNat := by
        rw [mod_eq_zero_iff] at indivisible
        exact minFac_ne_of_not_dvd indivisible
      have oddFactor := odd_minFac oddNumber
      exact ih (by omega) (by omega) accepted
  | case3 divisor small indivisible outside =>
      have below := n.toNat_lt_size
      rw [lt_add_two_iff, UInt64.lt_iff_toNat_lt] at outside
      apply prime_of_lt_sq two least
      have : 2 * divisor.toNat ≤ divisor.toNat * divisor.toNat :=
        Nat.mul_le_mul_right _ (by omega)
      omega
  | case4 divisor large =>
      apply prime_of_lt_sq two least
      rw [UInt64.le_iff_toNat_le] at large
      have := le_toNat_mul divisor divisor
      omega

theorem prime_of_isPrime {n : UInt64} (accepted : isPrime n = true) : n.toNat.Prime := by
  unfold isPrime at accepted
  split at accepted
  · contradiction
  · rename_i large
    have two : 2 ≤ n.toNat := by
      rw [UInt64.lt_iff_toNat_lt] at large
      exact Nat.le_of_not_lt large
    split at accepted
    · have : n = 2 := by simpa using accepted
      subst this
      exact Nat.prime_two
    · rename_i odd
      have odd : n.toNat % 2 = 1 := by
        rw [mod_two_eq_zero_iff] at odd
        omega
      have three : 3 ≤ n.toNat.minFac := by
        have := (Nat.minFac_prime (show n.toNat ≠ 1 by omega)).two_le
        have := odd_minFac odd
        omega
      exact prime_of_hasNoDivisorFrom n 3 two odd rfl three accepted

structure AscendingPrimes (found : Array UInt64) : Prop where
  prime : ∀ p ∈ found.toList, p.toNat.Prime
  ascending : found.toList.Pairwise (· < ·)

theorem ascendingPrimes_push {found : Array UInt64} {candidate : UInt64}
    (ascends : AscendingPrimes found) (below : ∀ p ∈ found.toList, p < candidate)
    (accepted : isPrime candidate = true) : AscendingPrimes (found.push candidate) := by
  constructor
  · intro p member
    rw [Array.toList_push, List.mem_append, List.mem_singleton] at member
    rcases member with member | rfl
    · exact ascends.prime p member
    · exact prime_of_isPrime accepted
  · rw [Array.toList_push, List.pairwise_append]
    refine ⟨ascends.ascending, List.pairwise_singleton _ _, ?_⟩
    intro p member q last
    rw [List.mem_singleton.mp last]
    exact below p member

def withCandidate (candidate : UInt64) (found : Array UInt64) : Array UInt64 :=
  if isPrime candidate then found.push candidate else found

def nextCandidate (candidate : UInt64) : UInt64 := candidate + (if candidate = 2 then 1 else 2)

theorem collectPrimes_step (count : Nat) (candidate : UInt64) (found : Array UInt64) :
    collectPrimes count candidate found =
      if found.size < count then
        if candidate < nextCandidate candidate then
          collectPrimes count (nextCandidate candidate) (withCandidate candidate found)
        else withCandidate candidate found
      else found := by
  rw [collectPrimes]
  rfl

theorem mem_withCandidate {candidate p : UInt64} {found : Array UInt64}
    (member : p ∈ (withCandidate candidate found).toList) : p ∈ found.toList ∨ p = candidate := by
  unfold withCandidate at member
  split at member
  · rwa [Array.toList_push, List.mem_append, List.mem_singleton] at member
  · exact Or.inl member

theorem ascendingPrimes_withCandidate {found : Array UInt64} {candidate : UInt64}
    (ascends : AscendingPrimes found) (below : ∀ p ∈ found.toList, p < candidate) :
    AscendingPrimes (withCandidate candidate found) := by
  unfold withCandidate
  split
  · exact ascendingPrimes_push ascends below (by assumption)
  · exact ascends

theorem ascendingPrimes_collectPrimes (count : Nat) (candidate : UInt64) (found : Array UInt64)
    (ascends : AscendingPrimes found) (below : ∀ p ∈ found.toList, p < candidate) :
    AscendingPrimes (collectPrimes count candidate found) := by
  induction left : UInt64.size - candidate.toNat using Nat.strong_induction_on
    generalizing candidate found with
  | _ left ih =>
      rw [collectPrimes_step]
      split
      · split
        · rename_i grows
          have ahead := UInt64.lt_iff_toNat_lt.mp grows
          have inside := (nextCandidate candidate).toNat_lt_size
          apply ih _ (by omega) _ _ (ascendingPrimes_withCandidate ascends below) _ rfl
          intro p member
          rcases mem_withCandidate member with member | rfl
          · exact UInt64.lt_trans (below p member) grows
          · exact grows
        · exact ascendingPrimes_withCandidate ascends below
      · exact ascends

theorem ascendingPrimes_smallestPrimes (count : Nat) :
    AscendingPrimes (smallestPrimes count) :=
  ascendingPrimes_collectPrimes count 2 #[] ⟨by simp, by simp⟩ (by simp)

end NestedPoly
