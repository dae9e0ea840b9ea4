import Mathlib
import NestedPoly.Proofs.PrimeTest

/-! The search for primes comes to its end by itself.

It is told as a run that nothing ends but its own result, where every sum and product is taken in 64
bits. While the numbers are small none of these wraps, so that the run is the one of exact arithmetic, and
it ends where the search that is kept from wrapping ends. -/

namespace NestedPoly

/-- The search from `candidate` on, with the candidates that are tested and what is tried on them. -/
inductive SearchRun (count : Nat) :
    UInt64 → Array UInt64 → List (UInt64 × List UInt64) → Array UInt64 → Prop where
  | full {candidate : UInt64} {found : Array UInt64} (enough : ¬ found.size < count) :
      SearchRun count candidate found [] found
  | next {candidate : UInt64} {found result : Array UInt64} {tried : List UInt64} {accepted : Bool}
      {tests : List (UInt64 × List UInt64)} (few : found.size < count)
      (test : TestRun candidate tried accepted)
      (further : SearchRun count (candidate + if candidate = 2 then 1 else 2)
        (if accepted then found.push candidate else found) tests result) :
      SearchRun count candidate found ((candidate, tried) :: tests) result

theorem SearchRun.unique {count : Nat} {candidate : UInt64} {found result other : Array UInt64}
    {tests others : List (UInt64 × List UInt64)}
    (first : SearchRun count candidate found tests result)
    (second : SearchRun count candidate found others other) : result = other := by
  induction first generalizing others other with
  | full enough =>
      cases second with
      | full => rfl
      | next few => exact absurd few enough
  | next few test further ih =>
      cases second with
      | full enough => exact absurd few enough
      | next _ alsoTest alsoFurther =>
          rw [← (test.unique alsoTest).2] at alsoFurther
          exact ih alsoFurther

/-- No sum and no product of the test of a candidate and of the step to the next one wraps. -/
structure CalmTest (test : UInt64 × List UInt64) : Prop where
  step : test.1.toNat + 2 < UInt64.size
  tried : ∀ divisor ∈ test.2, Unwrapped divisor

theorem exists_searchRun {count limit : Nat} {candidate : UInt64} {found : Array UInt64}
    (collected : Collected candidate found) (enough : count ≤ Nat.count Nat.Prime limit)
    (low : limit ≤ 2 ^ 63) :
    ∃ tests, SearchRun count candidate found tests (collectPrimes count candidate found) ∧
      ∀ test ∈ tests, CalmTest test := by
  induction left : limit - candidate.toNat using Nat.strong_induction_on
    generalizing candidate found with
  | _ left ih =>
      rw [collectPrimes_step]
      split
      · rename_i few
        have before : candidate.toNat < limit := by
          by_contra reached
          have more := Nat.count_monotone Nat.Prime (Nat.le_of_not_lt reached)
          have size := collected.size
          omega
        have size : UInt64.size = 2 ^ 64 := rfl
        have grows : candidate < nextCandidate candidate := by
          by_contra stuck
          have last := le_of_not_grows stuck
          omega
        have ahead := UInt64.lt_iff_toNat_lt.mp grows
        rcases exists_testRun candidate with ⟨tried, test, unwrapped⟩
        rcases ih _ (by omega) (collected.next grows) rfl with ⟨tests, run, calm⟩
        rw [if_pos grows]
        have step : candidate.toNat + 2 < UInt64.size := by omega
        have first : CalmTest (candidate, tried) := ⟨step, unwrapped (by omega)⟩
        exact ⟨_, .next few test run, List.forall_mem_cons.mpr ⟨first, calm⟩⟩
      · rename_i enough
        exact ⟨[], .full enough, by simp⟩

theorem exists_mem_smallestPrimes {count : Nat} {last : UInt64}
    (listed : last ∈ (smallestPrimes count).toList) {p : Nat} (prime : p.Prime)
    (le : p ≤ last.toNat) : ∃ entry ∈ (smallestPrimes count).toList, entry.toNat = p := by
  have numbers := toNat_smallestPrimes count
  have place := List.mem_map_of_mem (f := UInt64.toNat) listed
  rw [numbers, List.mem_map] at place
  rcases place with ⟨index, inside, at_index⟩
  have position : Nat.count Nat.Prime p ≤ index := by
    rw [← Nat.count_nth_of_infinite Nat.infinite_setOfPred_prime index, at_index]
    exact Nat.count_monotone Nat.Prime le
  have member : p ∈ (smallestPrimes count).toList.map UInt64.toNat := by
    rw [numbers, List.mem_map]
    refine ⟨Nat.count Nat.Prime p, ?_, Nat.nth_count prime⟩
    exact List.mem_range.mpr (Nat.lt_of_le_of_lt position (List.mem_range.mp inside))
  exact List.mem_map.mp member

/-- If the last of the wanted primes is below `2 ^ 63`, the search ends without a wrap, and the table has
as many primes as wanted, in ascending order and without a gap. -/
theorem smallestPrimes_without_gaps (count : Nat)
    (low : Nat.nth Nat.Prime (count - 1) < 2 ^ 63) :
    (∃ tests, SearchRun count 2 #[] tests (smallestPrimes count) ∧ ∀ test ∈ tests, CalmTest test) ∧
    (∀ tests result, SearchRun count 2 #[] tests result → result = smallestPrimes count) ∧
    (smallestPrimes count).size = count ∧
    (smallestPrimes count).toList.Pairwise (· < ·) ∧
    (∀ p ∈ (smallestPrimes count).toList, p.toNat.Prime) ∧
    ∀ last ∈ (smallestPrimes count).toList, ∀ p : Nat, p.Prime → p ≤ last.toNat →
      ∃ entry ∈ (smallestPrimes count).toList, entry.toNat = p := by
  have enough : count ≤ Nat.count Nat.Prime (Nat.nth Nat.Prime (count - 1) + 1) := by
    rw [Nat.count_nth_succ_of_infinite Nat.infinite_setOfPred_prime]
    omega
  have ascends := ascendingPrimes_smallestPrimes count
  have ended := exists_searchRun collected_start enough low
  refine ⟨ended, ?_, ?_, ascends.ascending, ascends.prime, ?_⟩
  · intro others result alsoRun
    rcases ended with ⟨tests, run, _⟩
    exact alsoRun.unique run
  · have within : Nat.nth Nat.Prime (count - 1) + 1 ≤ UInt64.size :=
      Nat.le_trans low (by decide)
    rw [size_smallestPrimes]
    exact Nat.min_eq_left (Nat.le_trans enough (Nat.count_monotone Nat.Prime within))
  · intro last listed p prime le
    exact exists_mem_smallestPrimes listed prime le

theorem smallestPrimes_without_gaps_three : Nat.nth Nat.Prime 2 < 2 ^ 63 ∧
    (∃ tests, SearchRun 3 2 #[] tests #[2, 3, 5] ∧ ∀ test ∈ tests, CalmTest test) ∧
    ∀ p : Nat, p.Prime → p ≤ 5 → ∃ entry ∈ [(2 : UInt64), 3, 5], entry.toNat = p := by
  have listed : smallestPrimes 3 = #[2, 3, 5] := by cbv
  have low : Nat.nth Nat.Prime 2 < 2 ^ 63 := by
    rw [Nat.nth_prime_two_eq_five]
    decide
  have table := smallestPrimes_without_gaps 3 low
  rw [listed] at table
  exact ⟨low, table.1, fun p prime le => table.2.2.2.2.2 5 (by simp) p prime le⟩

end NestedPoly
