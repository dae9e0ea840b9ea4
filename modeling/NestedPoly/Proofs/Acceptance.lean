import Mathlib
import NestedPoly.Proofs.Reordering

/-! Which input is accepted, and what is said about the rest.

There is no search for repeated vectors before the work. Nonetheless factoring refuses exactly the
lists with a repeat, after those that are empty or uneven, as long as there is room for the tree. -/

namespace NestedPoly

variable {α : Type} {dim : Nat} {monomials : List (Monomial α)}

/-- The verdicts on a list of monomials. -/
inductive Verdict (dim : Nat) (monomials : List (Monomial α)) :
    Except Fault (NestedForm α) → Prop where
  | empty (absent : monomials = []) : Verdict dim monomials (.error .noMonomials)
  | uneven {row found : Nat} (present : monomials ≠ []) (place : UnevenAt dim monomials row found) :
      Verdict dim monomials (.error (.unevenRow row dim found))
  | repeated {first second : Nat} (present : monomials ≠ [])
      (uniform : ∀ m ∈ monomials, m.dim = dim)
      (places : SumsFit monomials → RepeatedAt (monomials.map Monomial.exponents) first second) :
      Verdict dim monomials (.error (.repeatedExponents first second))
  | full (present : monomials ≠ []) (uniform : ∀ m ∈ monomials, m.dim = dim)
      (crowded : nodeLimit < weight monomials) : Verdict dim monomials (.error .treeFull)
  | accepted {form : NestedForm α} (present : monomials ≠ [])
      (uniform : ∀ m ∈ monomials, m.dim = dim)
      (distinct : (monomials.map Monomial.exponents).Nodup)
      (short : monomials.length ≤ nodeLimit) : Verdict dim monomials (.ok form)

theorem verdict_outcome (options : FactoringOptions) (dim : Nat) (monomials : List (Monomial α)) :
    Verdict dim monomials (factorMonomials options dim monomials).outcome := by
  by_cases absent : monomials = []
  · subst absent
    rw [outcome_eq]
    exact Verdict.empty rfl
  · cases checked : checkDimensions dim monomials with
    | error fault =>
        obtain ⟨row, found, place, rfl⟩ := checkDimensions_eq_error_iff.mp checked
        rw [outcome_eq, if_neg (by simpa using absent), checked]
        exact Verdict.uneven absent place
    | ok =>
        have uniform := checkDimensions_eq_ok_iff.mp checked
        by_cases blocked : Blocked dim 0 monomials
        · rcases outcome_of_blocked options blocked absent uniform with
            ⟨refused, crowded⟩ | ⟨first, second, refused, places⟩
          · rw [refused]
            exact Verdict.full absent uniform crowded
          · rw [refused]
            exact Verdict.repeated absent uniform places
        · obtain ⟨nest, shape, room⟩ := greedyForm_of_not_blocked blocked
          rw [Nat.zero_add] at room
          have leaves := countLeaves_le_countNodes nest
          rw [countLeaves_greedyForm shape] at leaves
          rw [outcome_of_greedyForm options shape absent uniform room]
          exact Verdict.accepted absent uniform (nodup_of_greedyForm shape) (by omega)

section
variable {outcome : Except Fault (NestedForm α)} (verdict : Verdict dim monomials outcome)
include verdict

theorem Verdict.noMonomials_iff : outcome = .error .noMonomials ↔ monomials = [] := by
  cases verdict with
  | empty absent => simp [absent]
  | uneven present place => simp [present]
  | repeated present uniform places => simp [present]
  | full present uniform crowded => simp [present]
  | accepted present uniform distinct short => simp [present]

theorem Verdict.unevenRow_iff (row expected found : Nat) :
    outcome = .error (.unevenRow row expected found) ↔
      expected = dim ∧ UnevenAt dim monomials row found := by
  have even (uniform : ∀ m ∈ monomials, m.dim = dim) : ¬ UnevenAt dim monomials row found :=
    fun place => not_uniform_of_unevenAt place uniform
  cases verdict with
  | empty absent =>
      have even := even (by simp [absent])
      simp [even]
  | @uneven other otherFound present place =>
      simp only [Except.error.injEq, Fault.unevenRow.injEq]
      constructor
      · rintro ⟨rfl, rfl, rfl⟩
        exact ⟨rfl, place⟩
      · rintro ⟨rfl, also⟩
        obtain ⟨rfl, rfl⟩ := unevenAt_unique place also
        exact ⟨rfl, rfl, rfl⟩
  | repeated present uniform places => simp [even uniform]
  | full present uniform crowded => simp [even uniform]
  | accepted present uniform distinct short => simp [even uniform]

theorem Verdict.of_ok {form : NestedForm α} (built : outcome = .ok form) :
    monomials ≠ [] ∧ (∀ m ∈ monomials, m.dim = dim) ∧
      (monomials.map Monomial.exponents).Nodup := by
  cases verdict with
  | accepted present uniform distinct short => exact ⟨present, uniform, distinct⟩
  | _ => cases built

theorem Verdict.fault_cases {fault : Fault} (refused : outcome = .error fault) :
    fault = .noMonomials ∨ (∃ row found, fault = .unevenRow row dim found) ∨
      (∃ first second, fault = .repeatedExponents first second) ∨
      fault = .treeFull ∧ nodeLimit < weight monomials := by
  cases verdict with
  | empty absent =>
      cases refused
      exact .inl rfl
  | @uneven row found present place =>
      cases refused
      exact .inr (.inl ⟨row, found, rfl⟩)
  | @repeated first second present uniform places =>
      cases refused
      exact .inr (.inr (.inl ⟨first, second, rfl⟩))
  | full present uniform crowded =>
      cases refused
      exact .inr (.inr (.inr ⟨rfl, crowded⟩))
  | accepted present uniform distinct short => cases refused

theorem Verdict.repeatedAt (fit : SumsFit monomials) {first second : Nat}
    (refused : outcome = .error (.repeatedExponents first second)) :
    RepeatedAt (monomials.map Monomial.exponents) first second := by
  cases verdict with
  | repeated present uniform places =>
      cases refused
      exact places fit
  | _ => cases refused

section
variable (fit : SumsFit monomials) (room : weight monomials ≤ nodeLimit)
include fit room

theorem Verdict.repeatedExponents_iff :
    (∃ first second, outcome = .error (.repeatedExponents first second)) ↔
      (∀ m ∈ monomials, m.dim = dim) ∧ ¬ (monomials.map Monomial.exponents).Nodup := by
  cases verdict with
  | empty absent => simp [absent]
  | uneven present place => simp [not_uniform_of_unevenAt place]
  | repeated present uniform places =>
      simpa using ⟨uniform, not_nodup_of_repeatedAt (places fit)⟩
  | full present uniform crowded => omega
  | accepted present uniform distinct short => simp [distinct]

theorem Verdict.accepted_iff : (∃ form, outcome = .ok form) ↔
    monomials ≠ [] ∧ (∀ m ∈ monomials, m.dim = dim) ∧
      (monomials.map Monomial.exponents).Nodup := by
  cases verdict with
  | empty absent => simp [absent]
  | uneven present place => simp [not_uniform_of_unevenAt place]
  | repeated present uniform places => simp [not_nodup_of_repeatedAt (places fit)]
  | full present uniform crowded => omega
  | accepted present uniform distinct short => simpa using ⟨present, uniform, distinct⟩

end

theorem Verdict.eq_treeFull (present : monomials ≠ []) (uniform : ∀ m ∈ monomials, m.dim = dim)
    (distinct : (monomials.map Monomial.exponents).Nodup) (fit : SumsFit monomials)
    (many : nodeLimit < monomials.length) : outcome = .error .treeFull := by
  cases verdict with
  | empty absent => exact absurd absent present
  | uneven _ place => exact absurd uniform (not_uniform_of_unevenAt place)
  | repeated _ _ places => exact absurd distinct (not_nodup_of_repeatedAt (places fit))
  | full => rfl
  | accepted _ _ _ short => omega

end

/-- The first task finds what it needs: a join its branches, so that it can fail for lack of room
only, and a split in each exponent at least the power that it takes out. -/
def BufferBench.Unhindered (coding : Option PrimeCoding) (dim : Nat) (bench : BufferBench α) :
    Prop :=
  (∀ var power hasRest tasks fault, bench.tasks = .join var power hasRest :: tasks →
    (BufferBench.perform { bench with tasks } coding dim (.join var power hasRest)).2 = some fault →
      fault = .treeFull) ∧
  ∀ first last tasks var, bench.tasks = .split first last :: tasks →
    heaviest (exponentSums dim (bench.buffer.extract first last)) = some var →
      ∀ term ∈ bench.inside coding first last var,
        smallestPower var (bench.inside coding first last var) ≤ term.exponent var

theorem unhindered_of_reaches {coding : Option PrimeCoding} {terms : Array (Term α)}
    {bench : BufferBench α}
    (reached : BufferBench.Reaches coding dim (BufferBench.start terms) bench) :
    bench.Unhindered coding dim := by
  constructor
  · intro var power hasRest tasks fault first failed
    have seen : bench.view.tasks =
        .join var power hasRest :: tasks.map (RangeTask.view bench.buffer) := by
      rw [BufferBench.view, first]
      rfl
    have enough := Workbench.branches_le_of_reaches (BufferBench.view_of_reaches reached).1 seen
    rw [BufferBench.perform] at failed
    cases joined : bench.built.join var power hasRest with
    | ok built => simp [joined, BufferBench.settle] at failed
    | error cause =>
        have full := Builder.eq_treeFull_of_join enough joined
        simp only [joined, BufferBench.settle, Option.some.injEq] at failed
        exact failed.symm.trans full
  · intro first last tasks var _ _ term member
    exact smallestPower_le member

/-- Factoring refuses the empty list, then the first uneven row, then a repeated vector, and
nothing else but a tree that has no room. Which rows make a nested form does not depend on what is
checked beforehand. -/
theorem factoring_verdict (options : FactoringOptions) (dim : Nat) (monomials : List (Monomial α)) :
    ((factorMonomials options dim monomials).outcome = .error .noMonomials ↔ monomials = []) ∧
    (∀ row expected found,
      (factorMonomials options dim monomials).outcome = .error (.unevenRow row expected found) ↔
        expected = dim ∧ UnevenAt dim monomials row found) ∧
    (∀ form, (factorMonomials options dim monomials).outcome = .ok form →
      monomials ≠ [] ∧ (∀ m ∈ monomials, m.dim = dim) ∧
        (monomials.map Monomial.exponents).Nodup) ∧
    (∀ fault, (factorMonomials options dim monomials).outcome = .error fault →
      fault = .noMonomials ∨ (∃ row found, fault = .unevenRow row dim found) ∨
        (∃ first second, fault = .repeatedExponents first second) ∨
        fault = .treeFull ∧ nodeLimit < weight monomials) ∧
    ((∀ m ∈ monomials, m.Fits) →
      ((∃ form, (factorMonomials options dim monomials).outcome = .ok form) ↔
        monomials ≠ [] ∧ (∀ m ∈ monomials, m.dim = dim) ∧
          (monomials.map Monomial.exponents).Nodup ∧
          ∀ nest, greedy (Rule.exact α dim) monomials = some nest →
            nest.countNodes ≤ nodeLimit) ∧
      (monomials.length ≤ UInt32.size + 1 → ∀ first second,
        (factorMonomials options dim monomials).outcome =
          .error (.repeatedExponents first second) →
            RepeatedAt (monomials.map Monomial.exponents) first second) ∧
      (weight monomials ≤ nodeLimit →
        ((∃ first second, (factorMonomials options dim monomials).outcome =
            .error (.repeatedExponents first second)) ↔
          (∀ m ∈ monomials, m.dim = dim) ∧ ¬ (monomials.map Monomial.exponents).Nodup) ∧
        ((∃ form, (factorMonomials options dim monomials).outcome = .ok form) ↔
          monomials ≠ [] ∧ (∀ m ∈ monomials, m.dim = dim) ∧
            (monomials.map Monomial.exponents).Nodup))) ∧
    (∀ coding (terms : Array (Term α)) bench,
      BufferBench.Reaches coding dim (BufferBench.start terms) bench →
        bench.Unhindered coding dim) ∧
    ∀ (coefficients : List α) (rows : List (List Int)) (first second : BuildOptions),
      (∃ form, (NestedForm.ofRows coefficients rows first).outcome = .ok form) ↔
        ∃ form, (NestedForm.ofRows coefficients rows second).outcome = .ok form := by
  have verdict := verdict_outcome options dim monomials
  refine ⟨verdict.noMonomials_iff, verdict.unevenRow_iff, ?_, ?_, ?_, ?_, ?_⟩
  · intro form built
    exact verdict.of_ok built
  · intro fault refused
    exact verdict.fault_cases refused
  · intro fits
    refine ⟨outcome_eq_ok_iff options fits, ?_, ?_⟩
    · intro short first second refused
      exact verdict.repeatedAt (sumsFit_of_fits fits short) refused
    · intro room
      have fit := sumsFit_of_room fits room
      exact ⟨verdict.repeatedExponents_iff fit room, verdict.accepted_iff fit room⟩
  · intro coding terms bench reached
    exact unhindered_of_reaches reached
  · intro coefficients rows first second
    constructor
    · rintro ⟨form, built⟩
      exact ⟨_, outcome_ofRows built second⟩
    · rintro ⟨form, built⟩
      exact ⟨_, outcome_ofRows built first⟩

def powersBelow (count : Nat) : List (Monomial Int) := (List.range count).map fun e => ⟨1, [e]⟩

theorem dim_of_mem_powersBelow {count : Nat} : ∀ m ∈ powersBelow count, m.dim = 1 := by
  simp [powersBelow, Monomial.dim]

theorem fits_of_mem_powersBelow {count : Nat} (small : count ≤ UInt32.size) :
    ∀ m ∈ powersBelow count, m.Fits := by
  intro m member
  obtain ⟨e, below, rfl⟩ := List.mem_map.mp member
  simpa [Monomial.Fits] using Nat.lt_of_lt_of_le (List.mem_range.mp below) small

theorem length_powersBelow (count : Nat) : (powersBelow count).length = count := by
  simp [powersBelow]

theorem nodup_powersBelow (count : Nat) : ((powersBelow count).map Monomial.exponents).Nodup := by
  rw [powersBelow, List.map_map]
  apply List.Nodup.map _ List.nodup_range
  intro e other equal
  simpa using equal

theorem powersBelow_ne_nil {count : Nat} (positive : 0 < count) : powersBelow count ≠ [] := by
  rw [← List.length_pos_iff, length_powersBelow]
  exact positive

/-- Monomials of which nothing is wrong but that they are too many. -/
theorem factoring_refuses_crowd : powersBelow UInt32.size ≠ [] ∧
    (∀ m ∈ powersBelow UInt32.size, m.dim = 1 ∧ m.Fits) ∧
    ((powersBelow UInt32.size).map Monomial.exponents).Nodup ∧
    (factorMonomials FactoringOptions.standard 1 (powersBelow UInt32.size)).outcome =
      .error .treeFull := by
  have present : powersBelow UInt32.size ≠ [] := powersBelow_ne_nil (Nat.two_pow_pos 32)
  have fits : ∀ m ∈ powersBelow UInt32.size, m.Fits := fits_of_mem_powersBelow (Nat.le_refl _)
  have distinct := nodup_powersBelow UInt32.size
  have length := length_powersBelow UInt32.size
  refine ⟨present, fun m member => ⟨dim_of_mem_powersBelow m member, fits m member⟩, distinct, ?_⟩
  apply (verdict_outcome _ _ _).eq_treeFull present dim_of_mem_powersBelow distinct
  · exact sumsFit_of_fits fits (by omega)
  · rw [length]
    decide

end NestedPoly
