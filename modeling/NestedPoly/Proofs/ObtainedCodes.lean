import Mathlib
import NestedPoly.Proofs.PrimeCoding
import NestedPoly.Proofs.PrimeTable

namespace NestedPoly

theorem codeValue_replicate_zero (primes : List UInt64) (length : Nat) :
    codeValue primes (List.replicate length 0) = 1 := by
  induction primes generalizing length with
  | nil => cases length <;> rfl
  | cons p primes ih =>
      cases length with
      | zero => rfl
      | succ length => rw [List.replicate_succ, codeValue, ih, Nat.pow_zero]

namespace PrimeCoding

variable {coding : PrimeCoding} {exponents vector : List Nat} {var power code : Nat}

/-- The codes that were given so far, the latest first. Calls that give none are left out. -/
inductive Given (coding : PrimeCoding) : List Nat → Prop where
  | start : Given coding [one]
  | coded {codes : List Nat} {exponents : List Nat} {code : Nat} (before : Given coding codes)
      (coded : coding.codeOf exponents = .ok code) : Given coding (code :: codes)
  | divided {codes : List Nat} {var power code left : Nat} (before : Given coding codes)
      (given : code ∈ codes) (divided : coding.quotient? var power code = some left) :
      Given coding (left :: codes)

theorem dim_ofDim {dim : Nat} (fits : ∀ var < dim, Nat.nth Nat.Prime var < UInt64.size) :
    (ofDim dim).dim = dim := by
  have enough : dim ≤ Nat.count Nat.Prime UInt64.size := by
    by_contra few
    have last := fits (Nat.count Nat.Prime UInt64.size) (by omega)
    exact Nat.lt_irrefl _ ((Nat.lt_nth_iff_count_lt Nat.infinite_setOfPred_prime).mpr last)
  calc (ofDim dim).dim
    _ = min dim (Nat.count Nat.Prime UInt64.size) := size_smallestPrimes dim
    _ = dim := Nat.min_eq_left enough

theorem codeOf_zero (ascends : AscendingPrimes coding.primes) :
    coding.codeOf (List.replicate coding.dim 0) = .ok one := by
  rw [codeOf_eq_ok_iff ascends, codeValue_replicate_zero]
  exact ⟨List.length_replicate, rfl, by decide⟩

theorem codeOf_inj (ascends : AscendingPrimes coding.primes)
    (coded : coding.codeOf exponents = .ok code) (alsoCoded : coding.codeOf vector = .ok code) :
    exponents = vector := by
  have length := ((codeOf_eq_ok_iff ascends).mp coded).1
  have alsoLength := ((codeOf_eq_ok_iff ascends).mp alsoCoded).1
  have same (var : Nat) (inside : var < coding.dim) :
      exponents.getD var 0 = vector.getD var 0 := by
    have powers (power : Nat) : power ≤ exponents.getD var 0 ↔ power ≤ vector.getD var 0 := by
      calc power ≤ exponents.getD var 0
        _ ↔ coding.powerDivides var power code = true := by
          rw [powerDivides_iff ascends coded, and_iff_right inside]
        _ ↔ power ≤ vector.getD var 0 := by
          rw [powerDivides_iff ascends alsoCoded, and_iff_right inside]
    exact Nat.le_antisymm ((powers _).mp (Nat.le_refl _)) ((powers _).mpr (Nat.le_refl _))
  apply List.ext_getElem (length.trans alsoLength.symm)
  intro var inside alsoInside
  have equal := same var (length ▸ inside)
  rwa [List.getD_eq_getElem _ _ inside, List.getD_eq_getElem _ _ alsoInside] at equal

theorem exponent_lt_of_codeOf (ascends : AscendingPrimes coding.primes)
    (coded : coding.codeOf exponents = .ok code) :
    ∀ exponent ∈ exponents, exponent < UInt32.size := by
  intro exponent member
  have positive := codeOf_pos ascends coded
  rcases (codeOf_eq_ok_iff ascends).mp coded with ⟨length, _, below⟩
  rcases List.mem_iff_getElem.mp member with ⟨var, listed, rfl⟩
  have inside : var < coding.dim := by rwa [← length]
  have place : coding.primes.toList[var]? = some coding.primes.toList[var] :=
    List.getElem?_eq_getElem inside
  have two := (ascends.prime _ (List.mem_of_getElem? place)).two_le
  have whole : coding.powerDivides var exponents[var] code = true := by
    rw [powerDivides_iff ascends coded, List.getD_eq_getElem _ _ listed]
    exact ⟨inside, Nat.le_refl _⟩
  rw [powerDivides_iff_dvd ascends place _ positive below] at whole
  have small : 2 ^ exponents[var] < 2 ^ 128 := by
    calc 2 ^ exponents[var]
      _ ≤ coding.primes.toList[var].toNat ^ exponents[var] := Nat.pow_le_pow_left two _
      _ ≤ code := Nat.le_of_dvd positive whole
      _ < 2 ^ 128 := below
  calc exponents[var]
    _ < 128 := (Nat.pow_lt_pow_iff_right (by decide)).mp small
    _ < UInt32.size := by decide

theorem exists_quotient?_iff : (∃ left, coding.quotient? var power code = some left) ↔
    coding.powerDivides var power code = true := by
  unfold quotient? powerDivides
  cases coding.codeOfPower var power with
  | none => simp
  | some factor => simp

theorem codeOf_of_quotient? (ascends : AscendingPrimes coding.primes)
    (coded : coding.codeOf exponents = .ok code) {left : Nat}
    (divided : coding.quotient? var power code = some left) :
    coding.codeOf (exponents.modify var (· - power)) = .ok left := by
  have divides := exists_quotient?_iff.mp ⟨left, divided⟩
  rw [powerDivides_iff ascends coded] at divides
  rcases quotient?_eq_some ascends coded divides.1 divides.2 with ⟨same, alsoDivided, recoded⟩
  cases divided.symm.trans alsoDivided
  exact recoded

theorem exists_vector_of_given (ascends : AscendingPrimes coding.primes) {codes : List Nat}
    (given : coding.Given codes) :
    ∀ code ∈ codes, ∃ exponents, coding.codeOf exponents = .ok code := by
  induction given with
  | start =>
      rw [List.forall_mem_singleton]
      exact ⟨_, codeOf_zero ascends⟩
  | coded before coded ih => exact List.forall_mem_cons.mpr ⟨⟨_, coded⟩, ih⟩
  | divided before given divided ih =>
      rcases ih _ given with ⟨exponents, coded⟩
      exact List.forall_mem_cons.mpr ⟨⟨_, codeOf_of_quotient? ascends coded divided⟩, ih⟩

theorem occurs_iff (ascends : AscendingPrimes coding.primes)
    (coded : coding.codeOf exponents = .ok code) :
    coding.occurs var code = true ↔ var < coding.dim ∧ 0 < exponents.getD var 0 :=
  powerDivides_iff ascends coded 1

/-- Codes mirror vectors through every run of calls: each code given so far is that of one vector,
codes are told apart as the vectors are, and division goes the same way on both sides. -/
theorem codes_mirror_vectors (dim : Nat)
    (fits : ∀ var < dim, Nat.nth Nat.Prime var < UInt64.size) (codes : List Nat)
    (given : (ofDim dim).Given codes) :
    ∀ code ∈ codes, ∃ exponents : List Nat,
      (exponents.length = dim ∧ ∀ exponent ∈ exponents, exponent < UInt32.size) ∧
      (∀ vector, (ofDim dim).codeOf vector = .ok code ↔ vector = exponents) ∧
      (∀ other ∈ codes, ∀ vector, (ofDim dim).codeOf vector = .ok other →
        (code = other ↔ exponents = vector)) ∧
      ∀ var power,
        ((ofDim dim).powerDivides var power code = true ↔
          var < dim ∧ power ≤ exponents.getD var 0) ∧
        ((ofDim dim).occurs var code = true ↔ var < dim ∧ 0 < exponents.getD var 0) ∧
        ((∃ left, (ofDim dim).quotient? var power code = some left) ↔
          var < dim ∧ power ≤ exponents.getD var 0) ∧
        ∀ left, (ofDim dim).quotient? var power code = some left →
          (ofDim dim).codeOf (exponents.modify var (· - power)) = .ok left := by
  have ascends := ascendingPrimes_ofDim dim
  have size := dim_ofDim fits
  intro code member
  rcases exists_vector_of_given ascends given code member with ⟨exponents, coded⟩
  have length := ((codeOf_eq_ok_iff ascends).mp coded).1
  refine ⟨exponents, ⟨length.trans size, exponent_lt_of_codeOf ascends coded⟩, ?_, ?_, ?_⟩
  · intro vector
    constructor
    · intro alsoCoded
      exact codeOf_inj ascends alsoCoded coded
    · intro equal
      rwa [equal]
  · intro other _ vector otherCoded
    constructor
    · intro equal
      rw [← equal] at otherCoded
      exact codeOf_inj ascends coded otherCoded
    · intro equal
      rw [← equal] at otherCoded
      exact Except.ok.inj (coded.symm.trans otherCoded)
  · intro var power
    have divides : (ofDim dim).powerDivides var power code = true ↔
        var < dim ∧ power ≤ exponents.getD var 0 := by
      rw [powerDivides_iff ascends coded, size]
    have present : (ofDim dim).occurs var code = true ↔
        var < dim ∧ 0 < exponents.getD var 0 := by
      rw [occurs_iff ascends coded, size]
    exact ⟨divides, present, exists_quotient?_iff.trans divides,
      fun left => codeOf_of_quotient? ascends coded⟩

theorem codes_mirror_vectors_three :
    (∀ var < 2, Nat.nth Nat.Prime var < UInt64.size) ∧ (ofDim 2).Given [6, 12, 1] ∧
      ∃ exponents : List Nat,
        (∀ vector, (ofDim 2).codeOf vector = .ok 6 ↔ vector = exponents) ∧
        ((ofDim 2).powerDivides 0 2 6 = true ↔ 0 < 2 ∧ 2 ≤ exponents.getD 0 0) := by
  have fits : ∀ var < 2, Nat.nth Nat.Prime var < UInt64.size := by
    intro var small
    rcases (by omega : var = 0 ∨ var = 1) with rfl | rfl
    · rw [Nat.nth_prime_zero_eq_two]
      decide
    · rw [Nat.nth_prime_one_eq_three]
      decide
  have coded : (ofDim 2).codeOf [2, 1] = .ok 12 := by cbv
  have divided : (ofDim 2).quotient? 0 1 12 = some 6 := by cbv
  have given : (ofDim 2).Given [6, 12, 1] :=
    .divided (.coded .start coded) List.mem_cons_self divided
  rcases codes_mirror_vectors 2 fits _ given 6 List.mem_cons_self with
    ⟨exponents, _, only, _, queries⟩
  exact ⟨fits, given, exponents, only, (queries 0 2).1⟩

end PrimeCoding

end NestedPoly
