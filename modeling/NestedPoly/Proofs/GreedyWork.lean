import Mathlib
import NestedPoly.Proofs.Acceptance

namespace NestedPoly

variable {α : Type} {coding : Option PrimeCoding} {dim var : Nat} {monomials : List (Monomial α)}
  {nest : Nest α}

/-- Work ends without a task at the listing of the greedy form, or with a fault if the monomials have
none for which there is room. -/
inductive WorkVerdict {τ : Type} (dim : Nat) (monomials : List (Monomial α)) (tasks : List τ)
    (built : Builder α) : Option Fault → Prop where
  | listed {nest : Nest α} (found : greedy (Rule.wrapped α dim) monomials = some nest)
      (room : nest.countNodes ≤ nodeLimit) (idle : tasks = [])
      (laid : built.finish = some nest.arena) : WorkVerdict dim monomials tasks built none
  | refused {fault : Fault} (blocked : Blocked dim 0 monomials) :
      WorkVerdict dim monomials tasks built (some fault)

theorem workVerdict_buildNodes {terms : Array (Term α)} (present : residuals terms ≠ [])
    (uniform : ∀ m ∈ residuals terms, m.dim = dim) :
    WorkVerdict dim (residuals terms) (buildNodes none dim terms).1.tasks
      (buildNodes none dim terms).1.built (buildNodes none dim terms).2 := by
  by_cases blocked : Blocked dim 0 (residuals terms)
  · obtain ⟨after, fault, built, -⟩ := buildNodes_of_blocked blocked present uniform
    rw [built]
    exact WorkVerdict.refused blocked
  · simp only [Blocked, not_forall, Nat.not_lt] at blocked
    obtain ⟨nest, found, room⟩ := blocked
    rw [Nat.zero_add] at room
    rw [buildNodes_of_greedyForm (greedyForm_of_greedy found) uniform room]
    refine WorkVerdict.listed found room rfl (Builder.finish_of_pos ?_)
    rw [List.size_toArray, Nest.length_listing]
    exact nest.countNodes_pos

theorem workVerdict_of_map {σ τ : Type} {see : σ → τ} {tasks : List σ} {built : Builder α}
    {fault? : Option Fault} (verdict : WorkVerdict dim monomials (tasks.map see) built fault?) :
    WorkVerdict dim monomials tasks built fault? := by
  cases verdict with
  | listed found room idle laid =>
      exact WorkVerdict.listed found room (List.map_eq_nil_iff.mp idle) laid
  | refused blocked => exact WorkVerdict.refused blocked

/-- Codes are not in use, or each term has the code of its exponents. -/
def InStep (coding : Option PrimeCoding) (terms : List (Term α)) : Prop :=
  ∀ codes, coding = some codes →
    AscendingPrimes codes.primes ∧ ∀ term ∈ terms, term.CodedBy codes

theorem residuals_bare (terms : List (Term α)) :
    residuals (terms.map Term.bare).toArray = terms.map Term.monomial := by
  simp [residuals, Function.comp_def, Term.bare, Term.monomial]

section
variable {terms : List (Term α)} (present : terms ≠ [])
  (uniform : ∀ term ∈ terms, term.exponents.length = dim) (inStep : InStep coding terms)
include present uniform inStep

theorem workVerdict_of_inStep :
    WorkVerdict dim (terms.map Term.monomial) (buildNodes coding dim terms.toArray).1.tasks
      (buildNodes coding dim terms.toArray).1.built (buildNodes coding dim terms.toArray).2 := by
  have monomialsPresent : terms.map Term.monomial ≠ [] := by simpa using present
  have monomialsUniform : ∀ m ∈ terms.map Term.monomial, m.dim = dim :=
    List.forall_mem_map.mpr uniform
  cases coding with
  | none => exact workVerdict_buildNodes monomialsPresent monomialsUniform
  | some codes =>
      obtain ⟨ascends, coded⟩ := inStep codes rfl
      have bare := @workVerdict_buildNodes α dim (terms.map Term.bare).toArray
      rw [residuals_bare, buildNodes_bare ascends dim coded] at bare
      exact workVerdict_of_map (bare monomialsPresent monomialsUniform)

theorem workVerdict_build :
    WorkVerdict dim (terms.map Term.monomial) (build coding dim terms.toArray).1.tasks
      (build coding dim terms.toArray).1.built (build coding dim terms.toArray).2 := by
  have verdict := workVerdict_of_inStep present uniform inStep
  rw [BufferBench.build_view] at verdict
  exact workVerdict_of_map verdict

theorem endsWith_build :
    EndsWith (BufferBench.step coding dim) (BufferBench.start terms.toArray)
      (build coding dim terms.toArray) := by
  apply endsWith_runSteps
  intro faultless
  change (build coding dim terms.toArray).2 = none at faultless
  change (build coding dim terms.toArray).1.step coding dim = none
  have verdict := workVerdict_build present uniform inStep
  rw [faultless] at verdict
  cases verdict with
  | listed found room idle laid => rw [BufferBench.step, idle]

end

section
variable {τ : Type} {tasks : List τ} {built : Builder α} {fault? : Option Fault}
  (verdict : WorkVerdict dim monomials tasks built fault?)
include verdict

theorem WorkVerdict.finish_eq (found : greedy (Rule.wrapped α dim) monomials = some nest)
    (room : nest.countNodes ≤ nodeLimit) : fault? = none ∧ built.finish = some nest.arena := by
  cases verdict with
  | listed alsoFound _ idle laid =>
      cases found.symm.trans alsoFound
      exact ⟨rfl, laid⟩
  | refused blocked =>
      have crowded := blocked nest found
      omega

theorem WorkVerdict.exists_fault_iff : (∃ fault, fault? = some fault) ↔ Blocked dim 0 monomials := by
  cases verdict with
  | @listed nest found room idle laid =>
      refine iff_of_false (by simp) fun blocked => ?_
      have crowded := blocked nest found
      omega
  | refused blocked => simp [blocked]

end

theorem map_monomial_plainTerms (monomials : List (Monomial α)) :
    (plainTerms monomials).map Term.monomial = monomials := by
  simpa [residuals] using residuals_plainTerms monomials

theorem inStep_of_prepare {options : FactoringOptions} {terms : List (Term α)} {notes : List Event}
    (start : prepare options dim monomials = (coding, terms, notes)) :
    InStep coding terms ∧ terms.map Term.monomial = monomials := by
  have plain := map_monomial_plainTerms monomials
  constructor
  · intro codes used
    rw [used] at start
    exact coding_of_prepare start
  · rcases prepare_cases options dim monomials with ⟨_, without⟩ | ⟨_, encoded, same, _⟩
    · cases without.symm.trans start
      exact plain
    · cases encoded.symm.trans start
      rw [← plain, ← same, List.map_map]
      rfl

/-- From several terms the work ends by itself. It leaves the listing of their greedy form, or a fault
exactly if there is none that has room. The terms that factoring starts from are of this kind. -/
theorem work_follows_greedy_rule (dim : Nat) :
    (∀ coding (terms : List (Term α)), terms ≠ [] →
      (∀ term ∈ terms, term.exponents.length = dim) → (∀ term ∈ terms, term.monomial.Fits) →
      InStep coding terms →
        EndsWith (BufferBench.step coding dim) (BufferBench.start terms.toArray)
          (build coding dim terms.toArray) ∧
        (∀ nest, greedy (Rule.exact α dim) (terms.map Term.monomial) = some nest →
          nest.countNodes ≤ nodeLimit →
            (build coding dim terms.toArray).2 = none ∧
              (build coding dim terms.toArray).1.built.finish =
                some ⟨(nest.listing 0).toArray⟩) ∧
        ((∃ fault, (build coding dim terms.toArray).2 = some fault) ↔
          ∀ nest, greedy (Rule.exact α dim) (terms.map Term.monomial) = some nest →
            nodeLimit < nest.countNodes)) ∧
    ∀ options (monomials : List (Monomial α)) coding terms notes,
      prepare options dim monomials = (coding, terms, notes) →
        InStep coding terms ∧ terms.map Term.monomial = monomials := by
  constructor
  · intro coding terms present uniform narrow inStep
    have fits : ∀ m ∈ terms.map Term.monomial, m.Fits := List.forall_mem_map.mpr narrow
    have verdict := workVerdict_build present uniform inStep
    refine ⟨endsWith_build present uniform inStep, ?_, ?_⟩
    · intro nest found room
      exact verdict.finish_eq (greedy_wrapped_of_exact fits found room) room
    · rw [verdict.exists_fault_iff, blocked_iff fits]
  · intro options monomials coding terms notes start
    exact inStep_of_prepare start

theorem work_follows_greedy_rule_three : ∃ nest : Nest Int,
    greedy (Rule.exact Int 2) [⟨5, [2, 1]⟩, ⟨3, [1, 0]⟩, ⟨7, [0, 1]⟩] = some nest ∧
      EndsWith (BufferBench.step (some (PrimeCoding.ofDim 2)) 2)
        (BufferBench.start #[⟨(5 : Int), [2, 1], some 12, 0⟩, ⟨3, [1, 0], some 2, 1⟩,
          ⟨7, [0, 1], some 3, 2⟩])
        (build (some (PrimeCoding.ofDim 2)) 2 #[⟨5, [2, 1], some 12, 0⟩,
          ⟨3, [1, 0], some 2, 1⟩, ⟨7, [0, 1], some 3, 2⟩]) ∧
      (build (some (PrimeCoding.ofDim 2)) 2 #[⟨5, [2, 1], some 12, 0⟩,
        ⟨3, [1, 0], some 2, 1⟩, ⟨7, [0, 1], some 3, 2⟩]).1.built.finish =
          some ⟨(nest.listing 0).toArray⟩ := by
  have start : prepare ⟨true, true⟩ 2 [⟨(5 : Int), [2, 1]⟩, ⟨3, [1, 0]⟩, ⟨7, [0, 1]⟩] =
      (some (PrimeCoding.ofDim 2), [⟨5, [2, 1], some 12, 0⟩, ⟨3, [1, 0], some 2, 1⟩,
        ⟨7, [0, 1], some 3, 2⟩], []) := by cbv
  have found : greedy (Rule.exact Int 2) [⟨5, [2, 1]⟩, ⟨3, [1, 0]⟩, ⟨7, [0, 1]⟩] =
      some (.joined 0 1 (.joined 0 1 (.leaf 5 [(1, 1)]) (.leaf 3 [])) (.leaf 7 [(1, 1)])) := by cbv
  have inStep := ((work_follows_greedy_rule 2).2 _ _ _ _ _ start).1
  have work := (work_follows_greedy_rule 2).1 _ _ (by decide) (by decide) (by decide) inStep
  exact ⟨_, found, work.1, (work.2.1 _ found (by decide)).2⟩

/-- Terms that have a greedy form for which there is no room. -/
theorem work_stops_for_room : ∃ nest : Nest Int,
    greedy (Rule.exact Int 1) (powersBelow UInt32.size) = some nest ∧
      ∃ fault, (build none 1 (plainTerms (powersBelow UInt32.size)).toArray).2 = some fault := by
  have present : powersBelow UInt32.size ≠ [] := powersBelow_ne_nil (Nat.two_pow_pos 32)
  obtain ⟨nest, found⟩ := exists_greedy_of_nodup present dim_of_mem_powersBelow
    (nodup_powersBelow UInt32.size)
  have plain := map_monomial_plainTerms (powersBelow UInt32.size)
  have termsPresent : plainTerms (powersBelow UInt32.size) ≠ [] := by
    rw [← plain] at present
    exact fun empty => present (List.map_eq_nil_iff.mpr empty)
  have uniform : ∀ m ∈ (plainTerms (powersBelow UInt32.size)).map Term.monomial, m.dim = 1 := by
    rw [plain]
    exact dim_of_mem_powersBelow
  have verdict := workVerdict_build termsPresent (List.forall_mem_map.mp uniform)
    (show InStep none _ from fun codes used => nomatch used)
  refine ⟨nest, found, verdict.exists_fault_iff.mpr ?_⟩
  rw [plain]
  intro other alsoFound
  have many := length_le_countNodes alsoFound
  have limit : nodeLimit < UInt32.size := by decide
  rw [length_powersBelow] at many
  omega

end NestedPoly
