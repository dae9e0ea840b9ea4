import Mathlib
import NestedPoly.Proofs.PrimeTable

/-! The test for primes is right on every number of 64 bits, but its squares do not always fit.

The test is told as a run that nothing ends but its own results, where every sum and product is taken in
64 bits. A composite number has a divisor below `2 ^ 32`, so that the run on it ends before a square
wraps. A prime lets all divisors pass. From `(2 ^ 32 - 1) ^ 2` on its run comes to `2 ^ 32 + 1`, which has
a square of more than 64 bits, and goes on until a wrapped square happens to be above the prime. -/

namespace NestedPoly

/-- Trial division of `n` from `divisor` on, with the divisors whose squares are taken. -/
inductive TrialRun (n : UInt64) : UInt64 → List UInt64 → Bool → Prop where
  | passed {divisor : UInt64} (large : ¬ divisor * divisor ≤ n) : TrialRun n divisor [divisor] true
  | divided {divisor : UInt64} (small : divisor * divisor ≤ n) (divides : n % divisor = 0) :
      TrialRun n divisor [divisor] false
  | next {divisor : UInt64} {tried : List UInt64} {accepted : Bool}
      (small : divisor * divisor ≤ n) (indivisible : ¬ n % divisor = 0)
      (further : TrialRun n (divisor + 2) tried accepted) :
      TrialRun n divisor (divisor :: tried) accepted

inductive TestRun (n : UInt64) : List UInt64 → Bool → Prop where
  | below (low : n < 2) : TestRun n [] false
  | even (high : ¬ n < 2) (halves : n % 2 = 0) : TestRun n [] (n = 2)
  | odd {tried : List UInt64} {accepted : Bool} (high : ¬ n < 2) (uneven : ¬ n % 2 = 0)
      (trial : TrialRun n 3 tried accepted) : TestRun n tried accepted

theorem TrialRun.unique {n divisor : UInt64} {tried others : List UInt64} {accepted other : Bool}
    (first : TrialRun n divisor tried accepted) (second : TrialRun n divisor others other) :
    tried = others ∧ accepted = other := by
  induction first generalizing others other with
  | passed large =>
      cases second with
      | passed => exact ⟨rfl, rfl⟩
      | divided small => exact absurd small large
      | next small => exact absurd small large
  | divided small divides =>
      cases second with
      | passed large => exact absurd small large
      | divided => exact ⟨rfl, rfl⟩
      | next _ indivisible => exact absurd divides indivisible
  | next small indivisible further ih =>
      cases second with
      | passed large => exact absurd small large
      | divided _ divides => exact absurd divides indivisible
      | next _ _ alsoFurther =>
          rcases ih alsoFurther with ⟨rfl, same⟩
          exact ⟨rfl, same⟩

theorem TestRun.unique {n : UInt64} {tried others : List UInt64} {accepted other : Bool}
    (first : TestRun n tried accepted) (second : TestRun n others other) :
    tried = others ∧ accepted = other := by
  cases first with
  | below low =>
      cases second with
      | below => exact ⟨rfl, rfl⟩
      | even high => exact absurd low high
      | odd high => exact absurd low high
  | even high halves =>
      cases second with
      | below low => exact absurd low high
      | even => exact ⟨rfl, rfl⟩
      | odd _ uneven => exact absurd halves uneven
  | odd high uneven trial =>
      cases second with
      | below low => exact absurd low high
      | even _ halves => exact absurd halves uneven
      | odd _ _ alsoTrial => exact trial.unique alsoTrial

/-- Neither the square of a divisor nor the step to the next one wraps. -/
structure Unwrapped (divisor : UInt64) : Prop where
  square : divisor.toNat * divisor.toNat < UInt64.size
  step : divisor.toNat + 2 < UInt64.size

theorem unwrapped_of_lt {divisor : UInt64} (within : divisor.toNat < 2 ^ 32) :
    Unwrapped divisor := by
  constructor
  · calc divisor.toNat * divisor.toNat
      _ < 2 ^ 32 * 2 ^ 32 := Nat.mul_lt_mul'' within within
      _ = UInt64.size := rfl
  · have size : UInt64.size = 2 ^ 64 := rfl
    omega

/-- An odd number at which the trial division of `n` ends if it has not ended before. -/
structure EndsBy (n stop : UInt64) : Prop where
  odd : stop.toNat % 2 = 1
  three : 3 ≤ stop.toNat
  within : stop.toNat ≤ n.toNat
  stops : stop * stop ≤ n → n % stop = 0

theorem exists_endsBy_of_composite {n : UInt64} (odd : n.toNat % 2 = 1) (three : 3 ≤ n.toNat)
    (composite : ¬ n.toNat.Prime) : ∃ stop, EndsBy n stop ∧ stop.toNat < 2 ^ 32 := by
  have inside := n.toNat_lt
  have prime := Nat.minFac_prime (show n.toNat ≠ 1 by omega)
  have square : n.toNat.minFac ^ 2 < (2 ^ 32) ^ 2 := by
    calc n.toNat.minFac ^ 2
      _ ≤ n.toNat := Nat.minFac_sq_le_self (by omega) composite
      _ < (2 ^ 32) ^ 2 := by omega
  have low : n.toNat.minFac < 2 ^ 32 := lt_of_pow_lt_pow_left₀ 2 (Nat.zero_le _) square
  have word : (UInt64.ofNat n.toNat.minFac).toNat = n.toNat.minFac :=
    UInt64.toNat_ofNat_of_lt' (by change n.toNat.minFac < 2 ^ 64; omega)
  have oddFactor := odd_minFac odd
  have two := prime.two_le
  have le : n.toNat.minFac ≤ n.toNat := Nat.minFac_le (by omega)
  refine ⟨UInt64.ofNat n.toNat.minFac, ⟨by omega, by omega, by omega, fun _ => ?_⟩, by omega⟩
  rw [mod_eq_zero_iff, word]
  exact n.toNat.minFac_dvd

theorem exists_endsBy_of_prime {n : UInt64} (odd : n.toNat % 2 = 1) (three : 3 ≤ n.toNat)
    (prime : n.toNat.Prime) : ∃ stop, EndsBy n stop ∧
      (n.toNat < (2 ^ 32 - 1) * (2 ^ 32 - 1) → stop.toNat < 2 ^ 32) := by
  by_cases equal : n.toNat = 3
  · refine ⟨n, ⟨odd, three, Nat.le_refl _, fun _ => ?_⟩, by omega⟩
    exact mod_eq_zero_iff.mpr (Nat.dvd_refl _)
  · rcases exists_stop prime (by omega) odd with ⟨stop, least, before, oddStop, large, low⟩
    refine ⟨stop, ⟨oddStop, least, Nat.le_of_lt before, fun small => ?_⟩, low⟩
    exact absurd (UInt64.le_iff_toNat_le.mp small) (Nat.not_le.mpr large)

theorem EndsBy.ahead {n stop divisor : UInt64} (ends : EndsBy n stop)
    (odd : divisor.toNat % 2 = 1) (before : divisor.toNat ≤ stop.toNat)
    (small : divisor * divisor ≤ n) (indivisible : ¬ n % divisor = 0) :
    divisor.toNat + 2 ≤ stop.toNat := by
  have oddStop := ends.odd
  have apart : divisor.toNat ≠ stop.toNat := by
    intro equal
    rw [UInt64.toNat_inj.mp equal] at small indivisible
    exact indivisible (ends.stops small)
  omega

theorem exists_trialRun {n stop divisor : UInt64} (ends : EndsBy n stop)
    (odd : divisor.toNat % 2 = 1) (before : divisor.toNat ≤ stop.toNat) :
    ∃ tried, TrialRun n divisor tried (hasNoDivisorFrom n divisor) ∧
      ∀ other ∈ tried, other.toNat ≤ stop.toNat := by
  have within := ends.within
  have inside := stop.toNat_lt_size
  induction divisor using hasNoDivisorFrom.induct n with
  | case1 divisor small divides =>
      rw [hasNoDivisorFrom, if_pos small, if_pos divides]
      exact ⟨_, .divided small divides, List.forall_mem_singleton.mpr before⟩
  | case2 divisor small indivisible grows ih =>
      have ahead := ends.ahead odd before small indivisible
      have step := toNat_add_two (Nat.lt_of_le_of_lt ahead inside)
      rcases ih (by omega) (by omega) with ⟨tried, run, others⟩
      rw [hasNoDivisorFrom, if_pos small, if_neg indivisible, dif_pos grows]
      exact ⟨_, .next small indivisible run, List.forall_mem_cons.mpr ⟨before, others⟩⟩
  | case3 divisor small indivisible outside =>
      -- The guard stops nothing: there is another divisor up to `stop`.
      have ahead := ends.ahead odd before small indivisible
      rw [lt_add_two_iff, UInt64.lt_iff_toNat_lt] at outside
      omega
  | case4 divisor large =>
      rw [hasNoDivisorFrom, if_neg large]
      exact ⟨_, .passed large, List.forall_mem_singleton.mpr before⟩

theorem exists_testRun (n : UInt64) : ∃ tried, TestRun n tried (isPrime n) ∧
    (¬ (n.toNat.Prime ∧ (2 ^ 32 - 1) * (2 ^ 32 - 1) ≤ n.toNat) →
      ∀ divisor ∈ tried, Unwrapped divisor) := by
  unfold isPrime
  split
  · rename_i below
    exact ⟨_, .below below, by simp⟩
  · rename_i high
    split
    · rename_i halves
      exact ⟨_, .even high halves, by simp⟩
    · rename_i uneven
      have three : 3 ≤ n.toNat ∧ n.toNat % 2 = 1 := by
        rw [UInt64.lt_iff_toNat_lt] at high
        change ¬ n.toNat < 2 at high
        rw [mod_two_eq_zero_iff] at uneven
        omega
      have stops : ∃ stop, EndsBy n stop ∧
          (¬ (n.toNat.Prime ∧ (2 ^ 32 - 1) * (2 ^ 32 - 1) ≤ n.toNat) → stop.toNat < 2 ^ 32) := by
        by_cases prime : n.toNat.Prime
        · rcases exists_endsBy_of_prime three.2 three.1 prime with ⟨stop, ends, low⟩
          exact ⟨stop, ends, fun other => low (Nat.lt_of_not_le (other ⟨prime, ·⟩))⟩
        · rcases exists_endsBy_of_composite three.2 three.1 prime with ⟨stop, ends, low⟩
          exact ⟨stop, ends, fun _ => low⟩
      rcases stops with ⟨stop, ends, low⟩
      have trial : ∃ tried, TrialRun n 3 tried (hasNoDivisorFrom n 3) ∧
          ∀ divisor ∈ tried, divisor.toNat ≤ stop.toNat :=
        exists_trialRun ends rfl ends.three
      rcases trial with ⟨tried, run, before⟩
      refine ⟨tried, .odd high uneven run, ?_⟩
      intro calm divisor member
      exact unwrapped_of_lt (Nat.lt_of_le_of_lt (before divisor member) (low calm))

theorem TrialRun.mem_of_prime {n divisor : UInt64} {tried : List UInt64} {accepted : Bool}
    (run : TrialRun n divisor tried accepted) (prime : n.toNat.Prime)
    (large : (2 ^ 32 - 1) * (2 ^ 32 - 1) ≤ n.toNat) (odd : divisor.toNat % 2 = 1)
    (three : 3 ≤ divisor.toNat) (before : divisor.toNat ≤ 2 ^ 32 + 1) :
    4294967297 ∈ tried := by
  have first : (4294967297 : UInt64).toNat = 2 ^ 32 + 1 := by decide
  induction run with
  | @passed divisor above =>
      by_cases reached : divisor.toNat = 2 ^ 32 + 1
      · rw [UInt64.toNat_inj.mp (reached.trans first.symm)]
        exact List.mem_singleton_self _
      · have low : divisor.toNat ≤ 2 ^ 32 - 1 := by omega
        have square := (le_toNat_mul divisor divisor).trans (Nat.mul_le_mul low low)
        exact absurd (UInt64.le_iff_toNat_le.mpr (square.trans large)) above
  | @divided divisor small divides =>
      have either := prime.eq_one_or_self_of_dvd _ (mod_eq_zero_iff.mp divides)
      omega
  | @next divisor tried accepted small indivisible further ih =>
      by_cases reached : divisor.toNat = 2 ^ 32 + 1
      · rw [UInt64.toNat_inj.mp (reached.trans first.symm)]
        exact List.mem_cons_self
      · have size : UInt64.size = 2 ^ 64 := rfl
        have step : (divisor + 2).toNat = divisor.toNat + 2 := toNat_add_two (by omega)
        exact List.mem_cons_of_mem _ (ih (by omega) (by omega) (by omega))

theorem TestRun.overflows {n : UInt64} {tried : List UInt64} {accepted : Bool}
    (run : TestRun n tried accepted) (prime : n.toNat.Prime)
    (large : (2 ^ 32 - 1) * (2 ^ 32 - 1) ≤ n.toNat) :
    ∃ divisor ∈ tried, UInt64.size ≤ divisor.toNat * divisor.toNat := by
  cases run with
  | below low =>
      have two := UInt64.lt_iff_toNat_lt.mp low
      change n.toNat < 2 at two
      omega
  | even high halves =>
      have even := mod_two_eq_zero_iff.mp halves
      rcases prime.eq_two_or_odd with two | odd <;> omega
  | odd high uneven trial =>
      exact ⟨_, trial.mem_of_prime prime large rfl (by decide) (by decide), by decide⟩

/-- The test ends on every number of 64 bits, accepts the primes and no others, and takes squares that
fit into 64 bits except on the primes from `(2 ^ 32 - 1) ^ 2` on. -/
theorem prime_test_on_words (n : UInt64) : ∃ tried, TestRun n tried (isPrime n) ∧
    (∀ others accepted, TestRun n others accepted → others = tried ∧ accepted = isPrime n) ∧
    (isPrime n = true ↔ n.toNat.Prime) ∧
    ((∀ divisor ∈ tried, divisor.toNat * divisor.toNat < UInt64.size) ↔
      ¬ (n.toNat.Prime ∧ (2 ^ 32 - 1) * (2 ^ 32 - 1) ≤ n.toNat)) := by
  rcases exists_testRun n with ⟨tried, run, calm⟩
  refine ⟨tried, run, fun others accepted other => other.unique run, isPrime_iff, ?_, ?_⟩
  · rintro fits ⟨prime, beyond⟩
    rcases run.overflows prime beyond with ⟨divisor, member, large⟩
    exact absurd (fits divisor member) (Nat.not_lt.mpr large)
  · intro other divisor member
    exact (calm other divisor member).square

/-- What has an element of full order is prime. -/
theorem prime_of_generator {p : Nat} (generator : ZMod p) {factors : List Nat}
    (known : ∀ q ∈ factors, q.Prime) (product : factors.prod = p - 1)
    (whole : generator ^ (p - 1) = 1)
    (less : ∀ q ∈ factors, generator ^ ((p - 1) / q) ≠ 1) : p.Prime := by
  apply lucas_primality p generator whole
  intro q prime divides
  rw [← product] at divides
  rcases (Prime.dvd_prod_iff prime.prime).mp divides with ⟨factor, listed, within⟩
  rw [(Nat.prime_dvd_prime_iff_eq prime (known factor listed)).mp within]
  exact less factor listed

theorem prime_5594472617641 : Nat.Prime 5594472617641 := by
  have known : ∀ q ∈ [2, 2, 2, 3, 5, 1427, 2131, 15331], Nat.Prime q := by
    norm_num [List.forall_mem_cons]
  refine prime_of_generator 13 known (by norm_num) ?_ ?_
  · reduce_mod_char
  · norm_num [List.forall_mem_cons]
    refine ⟨?_, ?_, ?_, ?_, ?_, ?_⟩ <;> reduce_mod_char <;> decide

theorem prime_two_pow_64_sub_59 : Nat.Prime 18446744073709551557 := by
  have known : ∀ q ∈ [2, 2, 11, 137, 547] ++ [5594472617641], Nat.Prime q := by
    refine List.forall_mem_append.mpr ⟨?_, List.forall_mem_singleton.mpr prime_5594472617641⟩
    norm_num [List.forall_mem_cons]
  refine prime_of_generator 2 known (by norm_num) ?_ ?_
  · reduce_mod_char
  · norm_num [List.forall_mem_cons]
    refine ⟨?_, ?_, ?_, ?_, ?_⟩ <;> reduce_mod_char <;> decide

/-- On the prime `2 ^ 64 - 59` the test does not end without a square that does not fit. -/
theorem prime_test_overflows : ¬ ∃ tried accepted,
    TestRun 18446744073709551557 tried accepted ∧
      ∀ divisor ∈ tried, divisor.toNat * divisor.toNat < UInt64.size := by
  rintro ⟨tried, accepted, run, fits⟩
  have number : (18446744073709551557 : UInt64).toNat = 18446744073709551557 := by decide
  rcases run.overflows (number ▸ prime_two_pow_64_sub_59) (by decide) with ⟨divisor, member, large⟩
  exact absurd (fits divisor member) (Nat.not_lt.mpr large)

end NestedPoly
