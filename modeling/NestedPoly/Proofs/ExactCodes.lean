import Mathlib
import NestedPoly.Proofs.PrimeCoding
import NestedPoly.Proofs.PrimeTable

/-! Codes are exact up to the limit.

A product of prime powers grows from variable to variable. So the code is the product as long as the
whole of it is below the limit, and else there is a first variable whose power takes it there. Both the
power and the product are bounded on the way, and the one that fails first is that of this variable. -/

namespace NestedPoly

noncomputable def primeProduct (exponents : List Nat) (count : Nat) : Nat :=
  ∏ var ∈ Finset.range count, Nat.nth Nat.Prime var ^ exponents.getD var 0

theorem primeProduct_succ (exponents : List Nat) (count : Nat) :
    primeProduct exponents (count + 1) =
      primeProduct exponents count * Nat.nth Nat.Prime count ^ exponents.getD count 0 :=
  Finset.prod_range_succ _ count

@[simp] theorem primeProduct_zero (exponents : List Nat) : primeProduct exponents 0 = 1 := rfl

theorem primeProduct_pos (exponents : List Nat) (count : Nat) : 0 < primeProduct exponents count :=
  Finset.prod_pos fun var _ => Nat.pow_pos (Nat.prime_nth_prime var).pos

theorem primeProduct_mono (exponents : List Nat) {few many : Nat} (fewer : few ≤ many) :
    primeProduct exponents few ≤ primeProduct exponents many := by
  apply Finset.prod_le_prod_of_subset_of_one_le' (Finset.range_mono fewer)
  intro var _ _
  exact Nat.one_le_pow _ _ (Nat.prime_nth_prime var).pos

theorem codeValue_eq_prod {primes : List UInt64} {exponents : List Nat}
    (fits : exponents.length ≤ primes.length) :
    codeValue primes exponents =
      ∏ var ∈ Finset.range exponents.length,
        (primes.map UInt64.toNat).getD var 0 ^ exponents.getD var 0 := by
  induction primes generalizing exponents with
  | nil =>
      have none : exponents = [] := by simpa using fits
      simp [none]
  | cons p primes ih =>
      cases exponents with
      | nil => simp
      | cons e exponents =>
          have others : exponents.length ≤ primes.length := by simpa using fits
          rw [codeValue, ih others, List.length_cons, Finset.prod_range_succ', Nat.mul_comm]
          rfl

namespace PrimeCoding

variable {dim var exponent code : Nat} {exponents : List Nat}

theorem primes_ofDim (dim : Nat) : (ofDim dim).primes.toList.map UInt64.toNat =
    (List.range (ofDim dim).dim).map (Nat.nth Nat.Prime) := by
  rw [PrimeCoding.dim, ofDim, size_smallestPrimes]
  exact toNat_smallestPrimes dim

theorem prime_ofDim (inside : var < (ofDim dim).dim) :
    ∃ p, (ofDim dim).primes.toList[var]? = some p ∧ p.toNat = Nat.nth Nat.Prime var := by
  have listed := congrArg (·[var]?) (primes_ofDim dim)
  simpa [inside] using listed

theorem codeValue_take (length : exponents.length = (ofDim dim).dim) {count : Nat}
    (inside : count ≤ exponents.length) :
    codeValue (ofDim dim).primes.toList (exponents.take count) = primeProduct exponents count := by
  have taken : (exponents.take count).length = count := List.length_take_of_le inside
  have fits : (exponents.take count).length ≤ (ofDim dim).primes.toList.length := by
    rw [taken, Array.length_toList]
    exact Nat.le_trans inside (Nat.le_of_eq length)
  rw [codeValue_eq_prod fits, taken, primes_ofDim]
  apply Finset.prod_congr rfl
  intro var member
  have below : var < count := Finset.mem_range.mp member
  have known : var < (ofDim dim).dim := by omega
  simp [below, known, List.getD_eq_getElem?_getD]

theorem codeOf_ofDim_eq_ok_iff : (ofDim dim).codeOf exponents = .ok code ↔
    exponents.length = (ofDim dim).dim ∧ code = primeProduct exponents exponents.length ∧
      code < codeLimit := by
  rw [codeOf_eq_ok_iff (ascendingPrimes_ofDim dim)]
  apply and_congr_right
  intro length
  have whole := codeValue_take length (Nat.le_refl exponents.length)
  rw [List.take_length] at whole
  rw [whole]

theorem codeOf_eq_tooLarge (length : exponents.length = (ofDim dim).dim)
    (place : exponents[var]? = some exponent) (fits : primeProduct exponents var < codeLimit)
    (large : codeLimit ≤ primeProduct exponents (var + 1)) :
    (ofDim dim).codeOf exponents = .error (.codeTooLarge var exponent) := by
  have ascends := ascendingPrimes_ofDim dim
  rcases List.getElem?_eq_some_iff.mp place with ⟨inside, entry⟩
  rcases prime_ofDim (length ▸ inside) with ⟨p, prime, number⟩
  have taken : (exponents.take var).length = var := List.length_take_of_le (by omega)
  have room : 0 + (exponents.take var).length ≤ (ofDim dim).primes.toList.length := by
    rw [Nat.zero_add, taken, Array.length_toList]
    exact Nat.le_trans (Nat.le_of_lt inside) (Nat.le_of_eq length)
  have product : primeProduct exponents var =
      one * codeValue ((ofDim dim).primes.toList.drop 0) (exponents.take var) := by
    rw [List.drop_zero, codeValue_take length (by omega)]
    exact (Nat.one_mul _).symm
  have before := (foldlM_extend_eq_ok_iff ascends (exponents.take var) 0 room (by decide)
    (by decide) (primeProduct exponents var)).mpr ⟨product, fits⟩
  have refused : (ofDim dim).extend (primeProduct exponents var) var exponent =
      .error (.codeTooLarge var exponent) := by
    rw [primeProduct_succ, List.getD_eq_getElem _ _ inside, entry] at large
    rw [extend_eq ascends prime exponent (primeProduct_pos _ _) fits, number,
      if_neg (Nat.not_lt.mpr large)]
  have parts : exponents = exponents.take var ++ exponent :: exponents.drop (var + 1) := by
    rw [← entry, List.getElem_cons_drop, List.take_append_drop]
  rw [codeOf, if_neg (not_not.mpr length), parts, List.zipIdx_append, List.foldlM_append,
    bind_eq_error_iff]
  have last : (exponent :: exponents.drop (var + 1)).zipIdx (0 + (exponents.take var).length) =
      (exponent, var) :: (exponents.drop (var + 1)).zipIdx (var + 1) := by
    rw [taken, Nat.zero_add, List.zipIdx_cons]
  refine .inr ⟨_, before, ?_⟩
  rw [last, List.foldlM_cons, bind_eq_error_iff]
  exact .inl refused

/-- The outcomes, of which each excludes the others. -/
inductive CodeVerdict (dim : Nat) (exponents : List Nat) : Except Fault Nat → Prop where
  | wrong (different : exponents.length ≠ (ofDim dim).dim) :
      CodeVerdict dim exponents (.error (.wrongDimension (ofDim dim).dim exponents.length))
  | exact (length : exponents.length = (ofDim dim).dim)
      (below : primeProduct exponents exponents.length < codeLimit) :
      CodeVerdict dim exponents (.ok (primeProduct exponents exponents.length))
  | tooLarge {var : Nat} (length : exponents.length = (ofDim dim).dim)
      (first : IsLeast {d | d < exponents.length ∧ codeLimit ≤ primeProduct exponents (d + 1)}
        var) :
      CodeVerdict dim exponents (.error (.codeTooLarge var (exponents.getD var 0)))

theorem exists_first_tooLarge (large : codeLimit ≤ primeProduct exponents exponents.length) :
    ∃ var, IsLeast {d | d < exponents.length ∧ codeLimit ≤ primeProduct exponents (d + 1)} var := by
  have nonempty : exponents.length ≠ 0 := by
    intro empty
    rw [empty, primeProduct_zero] at large
    exact absurd large (by decide)
  have last : ∃ d, d < exponents.length ∧ codeLimit ≤ primeProduct exponents (d + 1) := by
    refine ⟨exponents.length - 1, by omega, ?_⟩
    rwa [Nat.sub_add_cancel (Nat.pos_of_ne_zero nonempty)]
  exact ⟨Nat.find last, Nat.find_spec last, fun d member => Nat.find_min' last member⟩

theorem primeProduct_lt_of_first
    (first : IsLeast {d | d < exponents.length ∧ codeLimit ≤ primeProduct exponents (d + 1)} var) :
    primeProduct exponents var < codeLimit := by
  cases var with
  | zero =>
      rw [primeProduct_zero]
      decide
  | succ var =>
      by_contra large
      have inside := first.1.1
      have earlier : var + 1 ≤ var := first.2 ⟨by omega, Nat.not_lt.mp large⟩
      omega

theorem codeVerdict_codeOf (dim : Nat) (exponents : List Nat) :
    CodeVerdict dim exponents ((ofDim dim).codeOf exponents) := by
  by_cases length : exponents.length = (ofDim dim).dim
  · by_cases below : primeProduct exponents exponents.length < codeLimit
    · rw [codeOf_ofDim_eq_ok_iff.mpr ⟨length, rfl, below⟩]
      exact CodeVerdict.exact length below
    · rcases exists_first_tooLarge (Nat.not_lt.mp below) with ⟨var, first⟩
      have inside : var < exponents.length := first.1.1
      have place : exponents[var]? = some (exponents.getD var 0) := by
        simp [inside]
      rw [codeOf_eq_tooLarge length place (primeProduct_lt_of_first first) first.1.2]
      exact CodeVerdict.tooLarge length first
  · rw [codeOf, if_pos length]
    exact CodeVerdict.wrong length

section
variable {outcome : Except Fault Nat} (verdict : CodeVerdict dim exponents outcome)
include verdict

theorem CodeVerdict.wrongDimension_iff (expected found : Nat) :
    outcome = .error (.wrongDimension expected found) ↔
      exponents.length ≠ (ofDim dim).dim ∧ expected = (ofDim dim).dim ∧
        found = exponents.length := by
  cases verdict with
  | wrong different =>
      rw [Except.error.injEq, Fault.wrongDimension.injEq, and_iff_right different]
      exact and_congr eq_comm eq_comm
  | exact length below => simp [length]
  | tooLarge length first => simp [length]

theorem CodeVerdict.tooLarge_iff (var exponent : Nat) :
    outcome = .error (.codeTooLarge var exponent) ↔
      exponents.length = (ofDim dim).dim ∧
        IsLeast {d | d < exponents.length ∧ codeLimit ≤ primeProduct exponents (d + 1)} var ∧
        exponent = exponents.getD var 0 := by
  cases verdict with
  | wrong different => simp [different]
  | exact length below =>
      simp only [reduceCtorEq, false_iff]
      intro large
      rcases large with ⟨_, first, _⟩
      have inside : var + 1 ≤ exponents.length := first.1.1
      have above := Nat.le_trans first.1.2 (primeProduct_mono exponents inside)
      omega
  | @tooLarge other length first =>
      rw [Except.error.injEq, Fault.codeTooLarge.injEq, and_iff_right length]
      constructor
      · intro equal
        rcases equal with ⟨rfl, rfl⟩
        exact ⟨first, rfl⟩
      · intro least
        rcases least with ⟨alsoFirst, rfl⟩
        cases first.unique alsoFirst
        exact ⟨rfl, rfl⟩

theorem CodeVerdict.fault_cases {fault : Fault} (refused : outcome = .error fault) :
    (∃ expected found, fault = .wrongDimension expected found) ∨
      ∃ var exponent, fault = .codeTooLarge var exponent := by
  cases verdict with
  | wrong different =>
      cases refused
      exact .inl ⟨_, _, rfl⟩
  | exact length below => cases refused
  | tooLarge length first =>
      cases refused
      exact .inr ⟨_, _, rfl⟩

end

/-- A vector of the right length has a code exactly if its product of prime powers is below `2 ^ 128`,
and the code is the product. Else the first variable is reported whose power takes the product there. -/
theorem codes_are_exact (dim : Nat) (exponents : List Nat) :
    (ofDim dim).dim = min dim (Nat.count Nat.Prime UInt64.size) ∧
    (∀ expected found, (ofDim dim).codeOf exponents = .error (.wrongDimension expected found) ↔
      exponents.length ≠ (ofDim dim).dim ∧ expected = (ofDim dim).dim ∧
        found = exponents.length) ∧
    (∀ code, (ofDim dim).codeOf exponents = .ok code ↔
      exponents.length = (ofDim dim).dim ∧ code = primeProduct exponents exponents.length ∧
        code < 2 ^ 128) ∧
    (∀ var exponent, (ofDim dim).codeOf exponents = .error (.codeTooLarge var exponent) ↔
      exponents.length = (ofDim dim).dim ∧
        IsLeast {d | d < exponents.length ∧ 2 ^ 128 ≤ primeProduct exponents (d + 1)} var ∧
        exponent = exponents.getD var 0) ∧
    ∀ fault, (ofDim dim).codeOf exponents = .error fault →
      (∃ expected found, fault = .wrongDimension expected found) ∨
        ∃ var exponent, fault = .codeTooLarge var exponent := by
  have verdict := codeVerdict_codeOf dim exponents
  have limit : codeLimit = 2 ^ 128 := by norm_num [codeLimit, UInt64.size]
  rw [← limit]
  exact ⟨size_smallestPrimes dim, verdict.wrongDimension_iff, fun _ => codeOf_ofDim_eq_ok_iff,
    verdict.tooLarge_iff, fun _ => verdict.fault_cases⟩

example : (ofDim 2).codeOf [100, 30] = .error (.codeTooLarge 1 30) := by cbv

end PrimeCoding

end NestedPoly
