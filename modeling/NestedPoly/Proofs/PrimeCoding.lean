import Mathlib
import NestedPoly.PrimeCoding
import NestedPoly.Proofs.Primes

/-! Codes mirror exponent vectors.

A vector has a code exactly if its product of prime powers is below the limit, and the code is that
product. Since the primes differ, divisibility of the code by a prime power can be read off the
exponents, and the quotient is the code of what is left. -/

namespace NestedPoly

def codeValue : List UInt64 → List Nat → Nat
  | p :: primes, e :: exponents => p.toNat ^ e * codeValue primes exponents
  | _, _ => 1

@[simp] theorem codeValue_nil_right (primes : List UInt64) : codeValue primes [] = 1 := by
  cases primes <;> rfl

theorem codeValue_pos {primes : List UInt64} (exponents : List Nat)
    (prime : ∀ p ∈ primes, p.toNat.Prime) : 0 < codeValue primes exponents := by
  induction primes generalizing exponents with
  | nil => simp [codeValue]
  | cons p primes ih =>
      cases exponents with
      | nil => simp [codeValue]
      | cons e exponents =>
          have first : 0 < p.toNat := (prime p (by simp)).pos
          have others := ih exponents (fun q member => prime q (List.mem_cons_of_mem p member))
          exact Nat.mul_pos (Nat.pow_pos first) others

theorem coprime_codeValue {q : UInt64} {primes : List UInt64} (exponents : List Nat)
    (prime : ∀ p ∈ primes, p.toNat.Prime) (primeQ : q.toNat.Prime) (absent : q ∉ primes) :
    q.toNat.Coprime (codeValue primes exponents) := by
  induction primes generalizing exponents with
  | nil => simp [codeValue]
  | cons p primes ih =>
      cases exponents with
      | nil => simp [codeValue]
      | cons e exponents =>
          have different : q.toNat ≠ p.toNat := by
            intro equal
            exact absent (by simp [UInt64.toNat_inj.mp equal])
          have first : q.toNat.Coprime p.toNat :=
            (Nat.coprime_primes primeQ (prime p (by simp))).mpr different
          have others := ih exponents (fun r member => prime r (List.mem_cons_of_mem p member))
            (fun member => absent (List.mem_cons_of_mem p member))
          exact Nat.Coprime.mul_right (Nat.Coprime.pow_right e first) others

theorem pow_dvd_codeValue_iff {primes : List UInt64} {exponents : List Nat} {var : Nat}
    {p : UInt64} (prime : ∀ q ∈ primes, q.toNat.Prime) (distinct : primes.Nodup)
    (lengths : exponents.length = primes.length) (place : primes[var]? = some p) (k : Nat) :
    p.toNat ^ k ∣ codeValue primes exponents ↔ k ≤ exponents.getD var 0 := by
  induction primes generalizing exponents var with
  | nil => simp at place
  | cons q primes ih =>
      cases exponents with
      | nil => simp at lengths
      | cons e exponents =>
          have others : ∀ r ∈ primes, r.toNat.Prime :=
            fun r member => prime r (List.mem_cons_of_mem q member)
          obtain ⟨absent, distinct⟩ := List.nodup_cons.mp distinct
          cases var with
          | zero =>
              have equal : q = p := by simpa using place
              subst equal
              have apart := coprime_codeValue exponents others (prime q (by simp)) absent
              have two := (prime q (by simp)).two_le
              rw [codeValue, (Nat.Coprime.pow_left k apart).dvd_mul_right,
                Nat.pow_dvd_pow_iff_le_right two]
              rfl
          | succ var =>
              have member : p ∈ primes := List.mem_of_getElem? (by simpa using place)
              have different : p.toNat ≠ q.toNat := by
                intro equal
                exact absent (UInt64.toNat_inj.mp equal ▸ member)
              have apart : p.toNat.Coprime q.toNat :=
                (Nat.coprime_primes (others p member) (prime q (by simp))).mpr different
              rw [codeValue, (Nat.Coprime.pow k e apart).dvd_mul_left,
                ih others distinct (by simpa using lengths) (by simpa using place)]
              rfl

theorem pow_mul_codeValue_modify {primes : List UInt64} {exponents : List Nat} {var k : Nat}
    {p : UInt64} (place : primes[var]? = some p) (enough : k ≤ exponents.getD var 0) :
    p.toNat ^ k * codeValue primes (exponents.modify var (· - k)) =
      codeValue primes exponents := by
  induction primes generalizing exponents var with
  | nil => simp at place
  | cons q primes ih =>
      cases exponents with
      | nil =>
          have none : k = 0 := by simpa using enough
          simp [none]
      | cons e exponents =>
          cases var with
          | zero =>
              have equal : q = p := by simpa using place
              have enough : k ≤ e := by simpa using enough
              subst equal
              rw [List.modify_zero_cons, codeValue, codeValue]
              calc q.toNat ^ k * (q.toNat ^ (e - k) * codeValue primes exponents)
                _ = q.toNat ^ (k + (e - k)) * codeValue primes exponents := by
                  rw [← Nat.mul_assoc, ← Nat.pow_add]
                _ = q.toNat ^ e * codeValue primes exponents := by
                  rw [Nat.add_sub_cancel' enough]
          | succ var =>
              rw [List.modify_succ_cons, codeValue, codeValue, Nat.mul_left_comm,
                ih (by simpa using place) (by simpa using enough)]

theorem boundedPowerFrom_eq {base : Nat} (exponent value : Nat) (positive : 0 < base)
    (small : value < codeLimit) :
    boundedPowerFrom base exponent value =
      if value * base ^ exponent < codeLimit then some (value * base ^ exponent) else none := by
  induction exponent generalizing value with
  | zero => simp [boundedPowerFrom, small]
  | succ exponent ih =>
      have grouped : value * base ^ (exponent + 1) = value * base * base ^ exponent := by
        rw [Nat.pow_succ, Nat.mul_comm (base ^ exponent), Nat.mul_assoc]
      rw [boundedPowerFrom, grouped]
      split
      · exact ih _ (by assumption)
      · rename_i large
        have above : value * base ≤ value * base * base ^ exponent :=
          Nat.le_mul_of_pos_right _ (Nat.pow_pos positive)
        rw [if_neg (by omega)]

namespace PrimeCoding

variable {coding : PrimeCoding} {exponents : List Nat} {var code : Nat}

theorem ascendingPrimes_ofDim (dim : Nat) : AscendingPrimes (ofDim dim).primes :=
  ascendingPrimes_smallestPrimes dim

theorem codeOfPower_eq {p : UInt64} (ascends : AscendingPrimes coding.primes)
    (place : coding.primes.toList[var]? = some p) (exponent : Nat) :
    coding.codeOfPower var exponent =
      if p.toNat ^ exponent < codeLimit then some (p.toNat ^ exponent) else none := by
  have positive : 0 < p.toNat := (ascends.prime p (List.mem_of_getElem? place)).pos
  have found : coding.primes[var]? = some p := by simpa using place
  have expanded := boundedPowerFrom_eq exponent 1 positive (by decide)
  simpa [codeOfPower, found] using expanded

theorem extend_eq {p : UInt64} (ascends : AscendingPrimes coding.primes)
    (place : coding.primes.toList[var]? = some p) (exponent : Nat) (positive : 0 < code)
    (small : code < codeLimit) :
    coding.extend code var exponent =
      if code * p.toNat ^ exponent < codeLimit then .ok (code * p.toNat ^ exponent)
      else .error (.codeTooLarge var exponent) := by
  unfold extend
  split
  · rename_i none
    simp [none, small]
  · rw [codeOfPower_eq ascends place]
    by_cases fits : p.toNat ^ exponent < codeLimit
    · rw [if_pos fits]
    · have above : p.toNat ^ exponent ≤ code * p.toNat ^ exponent :=
        Nat.le_mul_of_pos_left _ positive
      rw [if_neg fits, if_neg (by omega)]

theorem foldlM_extend_eq_ok_iff (ascends : AscendingPrimes coding.primes) (exponents : List Nat)
    (offset : Nat) (fits : offset + exponents.length ≤ coding.primes.toList.length)
    (positive : 0 < code) (small : code < codeLimit) (result : Nat) :
    (exponents.zipIdx offset).foldlM (fun code (exponent, var) => coding.extend code var exponent)
        code = .ok result ↔
      result = code * codeValue (coding.primes.toList.drop offset) exponents ∧
        result < codeLimit := by
  induction exponents generalizing offset code with
  | nil =>
      change Except.ok code = .ok result ↔ _
      rw [codeValue_nil_right, Nat.mul_one, Except.ok.injEq]
      constructor
      · rintro rfl
        exact ⟨rfl, small⟩
      · rintro ⟨rfl, -⟩
        rfl
  | cons e exponents ih =>
      have inside : offset < coding.primes.toList.length := by
        simp only [List.length_cons] at fits
        omega
      have place := List.getElem?_eq_getElem inside
      have prime := ascends.prime _ (List.getElem_mem inside)
      change (coding.extend code offset e >>= fun code =>
        (exponents.zipIdx (offset + 1)).foldlM
          (fun code (exponent, var) => coding.extend code var exponent) code) = _ ↔ _
      rw [extend_eq ascends place e positive small, List.drop_eq_getElem_cons inside, codeValue,
        ← Nat.mul_assoc]
      split
      · rename_i below
        have fits : offset + 1 + exponents.length ≤ coding.primes.toList.length := by
          simp only [List.length_cons] at fits
          omega
        exact ih (offset + 1) fits (Nat.mul_pos positive (Nat.pow_pos prime.pos)) below
      · rename_i large
        constructor
        · intro done
          cases done
        · rintro ⟨rfl, below⟩
          -- Above the limit the product stays there, since no further factor is zero.
          have others : 0 < codeValue (coding.primes.toList.drop (offset + 1)) exponents :=
            codeValue_pos exponents (fun p member => ascends.prime p (List.mem_of_mem_drop member))
          have := Nat.le_mul_of_pos_right
            (code * coding.primes.toList[offset].toNat ^ e) others
          omega

theorem codeOf_eq_ok_iff (ascends : AscendingPrimes coding.primes) :
    coding.codeOf exponents = .ok code ↔
      exponents.length = coding.dim ∧ code = codeValue coding.primes.toList exponents ∧
        code < codeLimit := by
  unfold codeOf
  split
  · rename_i wrong
    simp [wrong]
  · rename_i right
    have lengths : exponents.length = coding.dim := by simpa using right
    have fits : 0 + exponents.length ≤ coding.primes.toList.length := by
      simp [lengths, dim]
    have product := foldlM_extend_eq_ok_iff ascends exponents 0 fits
      (show 0 < one by decide) (by decide) code
    simpa [lengths, one] using product

theorem codeOf_pos (ascends : AscendingPrimes coding.primes)
    (coded : coding.codeOf exponents = .ok code) : 0 < code := by
  obtain ⟨-, rfl, -⟩ := (codeOf_eq_ok_iff ascends).mp coded
  exact codeValue_pos exponents ascends.prime

theorem powerDivides_iff_dvd {p : UInt64} (ascends : AscendingPrimes coding.primes)
    (place : coding.primes.toList[var]? = some p) (power : Nat) (positive : 0 < code)
    (small : code < codeLimit) :
    coding.powerDivides var power code = true ↔ p.toNat ^ power ∣ code := by
  rw [powerDivides, codeOfPower_eq ascends place]
  by_cases fits : p.toNat ^ power < codeLimit
  · rw [if_pos fits]
    simp [Nat.dvd_iff_mod_eq_zero]
  · rw [if_neg fits]
    have undivided : ¬ p.toNat ^ power ∣ code := by
      intro divides
      have := Nat.le_of_dvd positive divides
      omega
    simp [undivided]

/-- A power of a variable divides a monomial exactly if it divides the code. -/
theorem powerDivides_iff (ascends : AscendingPrimes coding.primes)
    (coded : coding.codeOf exponents = .ok code) (power : Nat) :
    coding.powerDivides var power code = true ↔
      var < coding.dim ∧ power ≤ exponents.getD var 0 := by
  have positive := codeOf_pos ascends coded
  obtain ⟨lengths, product, below⟩ := (codeOf_eq_ok_iff ascends).mp coded
  by_cases inside : var < coding.dim
  · have place : coding.primes.toList[var]? = some coding.primes.toList[var] :=
      List.getElem?_eq_getElem inside
    have divides := pow_dvd_codeValue_iff ascends.prime ascends.ascending.nodup
      lengths place power
    rw [powerDivides_iff_dvd ascends place power positive below, product, divides]
    simp [inside]
  · have absent : coding.primes[var]? = none := Array.getElem?_eq_none (Nat.le_of_not_lt inside)
    simp [powerDivides, codeOfPower, absent, inside]

theorem occurs_eq (ascends : AscendingPrimes coding.primes)
    (coded : coding.codeOf exponents = .ok code) (var : Nat) :
    coding.occurs var code = decide (0 < exponents.getD var 0) := by
  have lengths := ((codeOf_eq_ok_iff ascends).mp coded).1
  rw [Bool.eq_iff_iff, occurs, powerDivides_iff ascends coded, decide_eq_true_iff]
  constructor
  · rintro ⟨-, present⟩
    exact present
  · intro present
    refine ⟨?_, present⟩
    by_contra outside
    have : exponents.getD var 0 = 0 := by
      rw [List.getD_eq_default]
      omega
    omega

theorem quotient?_eq_some (ascends : AscendingPrimes coding.primes)
    (coded : coding.codeOf exponents = .ok code) {power : Nat} (inside : var < coding.dim)
    (enough : power ≤ exponents.getD var 0) :
    ∃ left, coding.quotient? var power code = some left ∧
      coding.codeOf (exponents.modify var (· - power)) = .ok left := by
  obtain ⟨lengths, product, below⟩ := (codeOf_eq_ok_iff ascends).mp coded
  have place : coding.primes.toList[var]? = some coding.primes.toList[var] :=
    List.getElem?_eq_getElem inside
  have prime := ascends.prime _ (List.mem_of_getElem? place)
  have positive : 0 < coding.primes.toList[var].toNat ^ power := Nat.pow_pos prime.pos
  have split := pow_mul_codeValue_modify place enough
  rw [← product] at split
  have leftPositive := codeValue_pos (exponents.modify var (· - power)) ascends.prime
  have factorLe := Nat.le_mul_of_pos_right (coding.primes.toList[var].toNat ^ power) leftPositive
  have leftLe := Nat.le_mul_of_pos_left
    (codeValue coding.primes.toList (exponents.modify var (· - power))) positive
  refine ⟨codeValue coding.primes.toList (exponents.modify var (· - power)), ?_, ?_⟩
  · have factor := codeOfPower_eq ascends place power
    rw [if_pos (by omega)] at factor
    simp [quotient?, factor, ← split, Nat.mul_div_cancel_left _ positive]
  · rw [codeOf_eq_ok_iff ascends]
    refine ⟨?_, rfl, by omega⟩
    simpa using lengths

end PrimeCoding

end NestedPoly
