import Mathlib
import NestedPoly.Proofs.Buffer
import NestedPoly.Proofs.CodedTerms

namespace NestedPoly

variable {α : Type} {dim : Nat} {coding : PrimeCoding}

theorem forall₂_of_mapM_eq_ok {ε σ τ : Type} {f : σ → Except ε τ} {items : List σ}
    {results : List τ} (done : items.mapM f = .ok results) :
    List.Forall₂ (fun item result => f item = .ok result) items results := by
  induction items generalizing results with
  | nil =>
      cases done
      exact List.Forall₂.nil
  | cons item items ih =>
      rw [List.mapM_cons, bind_eq_ok_iff] at done
      obtain ⟨result, first, done⟩ := done
      obtain ⟨rest, others, done⟩ := bind_eq_ok_iff.mp done
      cases done
      exact List.Forall₂.cons first (ih others)

theorem codedTerms_spec {monomials : List (Monomial α)} {terms : List (Term α)}
    (encoded : codedTerms coding monomials = .ok terms) :
    terms.map Term.bare = plainTerms monomials ∧ ∀ term ∈ terms, term.CodedBy coding := by
  have each : List.Forall₂ (fun (entry : Monomial α × Nat) (term : Term α) =>
      term.CodedBy coding ∧ term.bare = ⟨entry.1.coefficient, entry.1.exponents, none, entry.2⟩)
      monomials.zipIdx terms := by
    apply (forall₂_of_mapM_eq_ok encoded).imp
    rintro ⟨m, position⟩ term made
    cases code : coding.codeOf m.exponents with
    | error fault => simp [code, bind, Except.bind] at made
    | ok value =>
        simp only [code, bind, Except.bind, pure, Except.pure, Except.ok.injEq] at made
        subst made
        exact ⟨⟨value, rfl, code⟩, rfl⟩
  clear encoded
  constructor
  · rw [plainTerms]
    generalize monomials.zipIdx = entries at each
    induction each with
    | nil => rfl
    | cons made _ ih => rw [List.map_cons, List.map_cons, made.2, ih]
  · generalize monomials.zipIdx = entries at each
    induction each with
    | nil => simp
    | cons made _ ih =>
        intro term member
        rcases List.mem_cons.mp member with rfl | member
        · exact made.1
        · exact ih term member

theorem prepare_cases (options : FactoringOptions) (dim : Nat) (monomials : List (Monomial α)) :
    (∃ notes, prepare options dim monomials = (none, plainTerms monomials, notes)) ∨
    ∃ terms, prepare options dim monomials = (some (PrimeCoding.ofDim dim), terms, []) ∧
      terms.map Term.bare = plainTerms monomials ∧
      ∀ term ∈ terms, term.CodedBy (PrimeCoding.ofDim dim) := by
  unfold prepare
  split
  · cases encoded : codedTerms (PrimeCoding.ofDim dim) monomials with
    | error cause =>
        simp only [encoded]
        exact Or.inl ⟨_, rfl⟩
    | ok terms =>
        simp only [encoded]
        exact Or.inr ⟨terms, rfl, codedTerms_spec encoded⟩
  · exact Or.inl ⟨_, rfl⟩

theorem taskBound_bare (terms : Array (Term α)) :
    taskBound (terms.map Term.bare) = taskBound terms := by
  simp [taskBound, Function.comp_def, Term.bare]

theorem coded_start {terms : List (Term α)} (coded : ∀ term ∈ terms, term.CodedBy coding) :
    Workbench.Coded coding (Workbench.start terms.toArray) := by
  intro branch member term listed
  have only : branch = terms.toArray := by
    simpa [Workbench.start] using member
  rw [only] at listed
  exact coded term (by simpa using listed)

theorem buildNodes_bare (ascends : AscendingPrimes coding.primes) (dim : Nat)
    {terms : List (Term α)} (coded : ∀ term ∈ terms, term.CodedBy coding) :
    buildNodes none dim (terms.map Term.bare).toArray =
      Prod.map Workbench.bare id (buildNodes (some coding) dim terms.toArray) := by
  have alike := runSteps_view (Workbench.step_bare ascends dim) (Workbench.coded_of_step ascends)
    (taskBound terms.toArray) (coded_start coded)
  have bareTerms : (terms.map Term.bare).toArray = terms.toArray.map Term.bare := by simp
  rw [buildNodes, bareTerms, taskBound_bare]
  exact alike

/-- What is built is the same in one buffer and from separate branches, with codes and without. -/
theorem built_eq {options : FactoringOptions} {monomials : List (Monomial α)}
    {used : Option PrimeCoding} {terms : List (Term α)} {notes : List Event}
    (start : prepare options dim monomials = (used, terms, notes)) :
    (build used dim terms.toArray).2 = (buildNodes none dim (plainTerms monomials).toArray).2 ∧
      (build used dim terms.toArray).1.built =
        (buildNodes none dim (plainTerms monomials).toArray).1.built ∧
      (build used dim terms.toArray).1.splits =
        (buildNodes none dim (plainTerms monomials).toArray).1.splits := by
  have view := BufferBench.build_view used dim terms.toArray
  rcases prepare_cases options dim monomials with ⟨_, without⟩ | ⟨_, encoded, same, coded⟩
  · cases without.symm.trans start
    rw [view]
    exact ⟨rfl, rfl, rfl⟩
  · cases encoded.symm.trans start
    have alike := buildNodes_bare (PrimeCoding.ascendingPrimes_ofDim dim) dim coded
    rw [same, view] at alike
    rw [alike]
    exact ⟨rfl, rfl, rfl⟩

theorem outcome_eq (options : FactoringOptions) (dim : Nat) (monomials : List (Monomial α)) :
    (factorMonomials options dim monomials).outcome =
      if monomials.isEmpty then .error .noMonomials
      else match checkDimensions dim monomials with
        | .error fault => .error fault
        | .ok () =>
          match buildNodes none dim (plainTerms monomials).toArray with
          | (_, some fault) => .error fault
          | (bench, none) =>
            match bench.built.finish with
            | none => .error .noMonomials
            | some arena => .ok (NestedForm.ofArena arena dim options.checked) := by
  unfold factorMonomials
  split
  · rfl
  · cases checkDimensions dim monomials with
    | error fault => rfl
    | ok =>
        rcases start : prepare options dim monomials with ⟨used, terms, notes⟩
        obtain ⟨faults, built, -⟩ := built_eq start
        rcases done : build used dim terms.toArray with ⟨bench, fault?⟩
        rcases plain : buildNodes none dim (plainTerms monomials).toArray with ⟨other, otherFault?⟩
        rw [done, plain] at faults built
        dsimp only at faults built
        subst faults
        simp only [done, built]
        rcases fault? with _ | fault
        · cases finished : other.built.finish <;> simp only [finished]
        · rfl

theorem coded_of_reaches {terms : List (Term α)} {bench : Workbench α}
    (ascends : AscendingPrimes coding.primes) (coded : ∀ term ∈ terms, term.CodedBy coding)
    (reached : Workbench.Reaches (some coding) dim (Workbench.start terms.toArray) bench) :
    Workbench.Coded coding bench :=
  Workbench.invariant_of_reaches (Workbench.Coded coding) (coded_start coded)
    (Workbench.coded_of_performs ascends) reached

theorem prepare_without_codes {options : FactoringOptions} {monomials : List (Monomial α)}
    {m : Monomial α} {cause : Fault} (member : m ∈ monomials)
    (missing : (PrimeCoding.ofDim dim).codeOf m.exponents = .error cause) :
    ∃ notes, prepare options dim monomials = (none, plainTerms monomials, notes) := by
  rcases prepare_cases options dim monomials with plain | ⟨terms, -, same, coded⟩
  · exact plain
  · exfalso
    have listed : m ∈ (terms.map Term.bare).map Term.monomial := by
      rw [same, plainTerms, List.map_map]
      change m ∈ monomials.zipIdx.map Prod.fst
      rw [List.zipIdx_map_fst]
      exact member
    rw [List.map_map] at listed
    obtain ⟨term, inside, rfl⟩ := List.mem_map.mp listed
    obtain ⟨code, -, encoded⟩ := coded term inside
    cases missing.symm.trans encoded

theorem coding_of_prepare {options : FactoringOptions} {monomials : List (Monomial α)}
    {terms : List (Term α)} {notes : List Event}
    (start : prepare options dim monomials = (some coding, terms, notes)) :
    AscendingPrimes coding.primes ∧ ∀ term ∈ terms, term.CodedBy coding := by
  rcases prepare_cases options dim monomials with ⟨_, plain⟩ | ⟨_, encoded, -, coded⟩
  · cases plain.symm.trans start
  · cases encoded.symm.trans start
    exact ⟨PrimeCoding.ascendingPrimes_ofDim dim, coded⟩

/-- Codes change nothing about the nested form or the fault. While they are in use, every term that
is still to be split has the code of its exponents, so codes and exponents tell the same about each
variable and each division by a code succeeds. -/
theorem factoring_with_codes_agrees (dim : Nat) (monomials : List (Monomial α)) :
    (∀ checked, (factorMonomials ⟨checked, true⟩ dim monomials).outcome =
      (factorMonomials ⟨checked, false⟩ dim monomials).outcome) ∧
    (∀ checked other, (factorMonomials ⟨checked, true⟩ dim monomials).outcome.map NestedForm.arena =
      (factorMonomials ⟨other, false⟩ dim monomials).outcome.map NestedForm.arena) ∧
    (∀ options, ∀ m ∈ monomials, ∀ cause,
      (PrimeCoding.ofDim dim).codeOf m.exponents = .error cause →
        ∃ notes, prepare options dim monomials = (none, plainTerms monomials, notes)) ∧
    ∀ options coding terms notes bench,
      prepare options dim monomials = (some coding, terms, notes) →
      BufferBench.Reaches (some coding) dim (BufferBench.start terms.toArray) bench →
      ∀ first last, RangeTask.split first last ∈ bench.tasks →
        (∀ term ∈ bench.buffer.extract first last, ∃ code, term.code = some code ∧
          coding.codeOf term.exponents = .ok code ∧
          ∀ var, coding.occurs var code = decide (0 < term.exponent var)) ∧
        ∀ var, ∀ term ∈ bench.inside (some coding) first last var, ∃ code left,
          term.code = some code ∧
          coding.quotient? var (smallestPower var (bench.inside (some coding) first last var)) code =
            some left := by
  refine ⟨?_, ?_, ?_, ?_⟩
  · intro checked
    rw [outcome_eq, outcome_eq]
  · intro checked other
    rw [outcome_eq, outcome_eq]
    split
    · rfl
    · cases checkDimensions dim monomials with
      | error fault => rfl
      | ok =>
          rcases buildNodes none dim (plainTerms monomials).toArray with ⟨bench, _ | fault⟩
          · dsimp only
            cases bench.built.finish <;> rfl
          · rfl
  · intro options m member cause missing
    exact prepare_without_codes member missing
  · intro options coding terms notes bench start reached first last pending
    obtain ⟨ascends, coded⟩ := coding_of_prepare start
    obtain ⟨seen, apart⟩ := BufferBench.view_of_reaches reached
    have current := coded_of_reaches ascends coded seen _ (List.mem_map.mpr ⟨_, pending, rfl⟩)
    obtain ⟨ordered, fits⟩ := apart.within _ (List.mem_filterMap.mpr ⟨_, pending, rfl⟩)
    constructor
    · intro term member
      obtain ⟨code, stored, encoded⟩ := current term member
      exact ⟨code, stored, encoded, PrimeCoding.occurs_eq ascends encoded⟩
    · intro var term member
      rw [← bench.inside_eq _ var ordered fits] at member ⊢
      obtain ⟨listed, present⟩ := mem_inside ascends current member
      obtain ⟨code, stored, encoded⟩ := current term listed
      obtain ⟨left, quotient, -⟩ := PrimeCoding.quotient?_eq_some ascends encoded
        (Term.lt_dim_of_codedBy ascends (current term listed) present) (smallestPower_le member)
      exact ⟨code, left, stored, quotient⟩

end NestedPoly
