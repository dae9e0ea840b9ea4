import Mathlib
import NestedPoly.Proofs.CodeAgreement
import NestedPoly.Proofs.Repeats
import NestedPoly.Proofs.Sparse

namespace NestedPoly

variable {α : Type} {dim var : Nat} {monomials : List (Monomial α)} {nest : Nest α}

theorem residuals_plainTerms (monomials : List (Monomial α)) :
    residuals (plainTerms monomials).toArray = monomials := by
  rw [residuals, plainTerms, List.map_map]
  exact List.zipIdx_map_fst 0 monomials

theorem mem_positionsOf_plainTerms {vector : List Nat} {i : Nat} :
    i ∈ positionsOf vector (plainTerms monomials) ↔
      (monomials.map Monomial.exponents)[i]? = some vector := by
  rw [positionsOf, plainTerms, List.filter_map, List.map_map, List.getElem?_map,
    Option.map_eq_some_iff]
  simp only [List.mem_map, List.mem_filter, List.mem_zipIdx_iff_getElem?, Function.comp_apply,
    decide_eq_true_eq]
  constructor
  · rintro ⟨⟨m, position⟩, ⟨place, equal⟩, rfl⟩
    exact ⟨m, place, equal⟩
  · rintro ⟨m, place, equal⟩
    exact ⟨(m, i), ⟨place, equal⟩, rfl⟩

theorem pairwise_positionsOf_plainTerms (vector : List Nat) (monomials : List (Monomial α)) :
    (positionsOf vector (plainTerms monomials)).Pairwise (· < ·) := by
  have all : (plainTerms monomials).map Term.position = List.range' 0 monomials.length := by
    rw [plainTerms, List.map_map]
    exact List.zipIdx_map_snd 0 monomials
  have part : (positionsOf vector (plainTerms monomials)).Sublist
      ((plainTerms monomials).map Term.position) :=
    List.Sublist.map _ List.filter_sublist
  rw [all] at part
  exact List.Pairwise.sublist part List.pairwise_lt_range'

theorem repeatedAt_of_namesRepeat {first second : Nat}
    (named : NamesRepeat (plainTerms monomials) (.repeatedExponents first second)) :
    RepeatedAt (monomials.map Monomial.exponents) first second := by
  obtain ⟨term, -, two, pair⟩ := named
  have ordered := pairwise_positionsOf_plainTerms term.exponents monomials
  have member (i : Nat) : i ∈ positionsOf term.exponents (plainTerms monomials) ↔
      (monomials.map Monomial.exponents)[i]? = some term.exponents := mem_positionsOf_plainTerms
  rcases listed : positionsOf term.exponents (plainTerms monomials)
    with _ | ⟨least, _ | ⟨next, others⟩⟩
  · simp [listed] at two
  · simp [listed] at two
  · rw [listed] at ordered member pair
    have sorted : (least :: next :: others).mergeSort = least :: next :: others := by
      apply List.mergeSort_of_pairwise
      apply ordered.imp
      intro a b less
      exact decide_eq_true (Nat.le_of_lt less)
    simp only [firstTwo, sorted, Fault.repeatedExponents.injEq] at pair
    obtain ⟨rfl, rfl⟩ := pair
    rw [List.pairwise_cons, List.pairwise_cons] at ordered
    refine ⟨ordered.1 second (by simp), term.exponents,
      (member first).mp (by simp), (member second).mp (by simp), ?_⟩
    intro i before place
    have listed := (member i).mpr place
    simp only [List.mem_cons] at listed
    rcases listed with rfl | rfl | later
    · rfl
    · omega
    · have := ordered.2.1 i later
      omega

theorem not_nodup_of_repeatedAt {vectors : List (List Nat)} {first second : Nat}
    (repeats : RepeatedAt vectors first second) : ¬ vectors.Nodup := by
  obtain ⟨less, vector, place, other, -⟩ := repeats
  intro distinct
  obtain ⟨below, equal⟩ := List.getElem?_eq_some_iff.mp place
  obtain ⟨alsoBelow, alsoEqual⟩ := List.getElem?_eq_some_iff.mp other
  have := (List.Nodup.getElem_inj_iff distinct).mp (equal.trans alsoEqual.symm)
  omega

theorem outcome_of_greedyForm (options : FactoringOptions)
    (form : GreedyForm (Rule.wrapped α dim) monomials nest) (present : monomials ≠ [])
    (uniform : ∀ m ∈ monomials, m.dim = dim) (room : nest.countNodes ≤ nodeLimit) :
    (factorMonomials options dim monomials).outcome =
      .ok (NestedForm.ofArena nest.arena dim options.checked) := by
  have built := @buildNodes_of_greedyForm α dim nest (plainTerms monomials).toArray
  rw [residuals_plainTerms] at built
  have listed : 0 < (Builder.mk (nest.listing 0).toArray [nest.countNodes - 1]).nodes.size := by
    rw [List.size_toArray, Nest.length_listing]
    exact nest.countNodes_pos
  have finished := Builder.finish_of_pos listed
  rw [outcome_eq, if_neg (by simpa using present), checkDimensions_eq_ok_iff.mpr uniform,
    built form uniform room]
  simp only [finished]
  rfl

theorem outcome_of_blocked (options : FactoringOptions) (blocked : Blocked dim 0 monomials)
    (present : monomials ≠ []) (uniform : ∀ m ∈ monomials, m.dim = dim) :
    (factorMonomials options dim monomials).outcome = .error .treeFull ∧
        nodeLimit < weight monomials ∨
      ∃ first second, (factorMonomials options dim monomials).outcome =
          .error (.repeatedExponents first second) ∧
        (SumsFit monomials → RepeatedAt (monomials.map Monomial.exponents) first second) := by
  have refused := @buildNodes_of_blocked α dim (plainTerms monomials).toArray
  rw [residuals_plainTerms] at refused
  obtain ⟨after, fault, built, obstacle⟩ := refused blocked present uniform
  have outcome : (factorMonomials options dim monomials).outcome = .error fault := by
    rw [outcome_eq, if_neg (by simpa using present), checkDimensions_eq_ok_iff.mpr uniform, built]
  cases obstacle with
  | crowded more => exact .inl ⟨outcome, by omega⟩
  | alike named =>
      exact .inr ⟨_, _, outcome, fun fit => repeatedAt_of_namesRepeat (named fit)⟩

theorem greedyForm_of_not_blocked {size : Nat} (free : ¬ Blocked dim size monomials) :
    ∃ nest, GreedyForm (Rule.wrapped α dim) monomials nest ∧ size + nest.countNodes ≤ nodeLimit := by
  simp only [Blocked, not_forall, Nat.not_lt] at free
  obtain ⟨nest, found, room⟩ := free
  exact ⟨nest, greedyForm_of_greedy found, room⟩

theorem free_of_outcome_eq_ok {options : FactoringOptions} {form : NestedForm α}
    (built : (factorMonomials options dim monomials).outcome = .ok form) :
    monomials ≠ [] ∧ (∀ m ∈ monomials, m.dim = dim) ∧ ¬ Blocked dim 0 monomials := by
  have present : monomials ≠ [] := by
    rintro rfl
    rw [outcome_eq] at built
    cases built
  have uniform : ∀ m ∈ monomials, m.dim = dim := by
    rw [← checkDimensions_eq_ok_iff]
    rw [outcome_eq, if_neg (by simpa using present)] at built
    cases checked : checkDimensions dim monomials with
    | ok => rfl
    | error fault => simp [checked] at built
  refine ⟨present, uniform, ?_⟩
  intro blocked
  rcases outcome_of_blocked options blocked present uniform with
    ⟨refused, -⟩ | ⟨first, second, refused, -⟩
  · cases built.symm.trans refused
  · cases built.symm.trans refused

theorem greedyForm_of_outcome_eq_ok {options : FactoringOptions} {form : NestedForm α}
    (built : (factorMonomials options dim monomials).outcome = .ok form) :
    monomials ≠ [] ∧ (∀ m ∈ monomials, m.dim = dim) ∧
      ∃ nest, GreedyForm (Rule.wrapped α dim) monomials nest ∧ nest.countNodes ≤ nodeLimit ∧
        form = NestedForm.ofArena nest.arena dim options.checked := by
  obtain ⟨present, uniform, free⟩ := free_of_outcome_eq_ok built
  obtain ⟨nest, shape, room⟩ := greedyForm_of_not_blocked free
  rw [Nat.zero_add] at room
  have outcome := outcome_of_greedyForm options shape present uniform room
  cases built.symm.trans outcome
  exact ⟨present, uniform, nest, shape, room, rfl⟩

theorem size_lt_of_outcome_eq_ok {options : FactoringOptions} {form : NestedForm α}
    (built : (factorMonomials options dim monomials).outcome = .ok form) :
    form.arena.size < UInt32.size := by
  obtain ⟨-, -, nest, -, room, rfl⟩ := greedyForm_of_outcome_eq_ok built
  have size : nest.arena.size = nest.countNodes := nest.length_listing 0
  have limit : nodeLimit < UInt32.size := by decide
  change nest.arena.size < _
  omega

theorem countLeaves_le_countNodes (nest : Nest α) : nest.countLeaves ≤ nest.countNodes := by
  induction nest with
  | leaf coefficient powers => exact Nat.le_refl _
  | scaled var power factored ih =>
      rw [Nest.countLeaves, Nest.countNodes]
      omega
  | joined var power factored rest innerIh outerIh =>
      rw [Nest.countLeaves, Nest.countNodes]
      omega

theorem nodup_quotients (distinct : (monomials.map Monomial.exponents).Nodup) :
    ((quotients var monomials).map Monomial.exponents).Nodup := by
  have inside : ((having var monomials).map Monomial.exponents).Nodup :=
    List.Nodup.sublist (List.filter_sublist.map _) distinct
  have lowered : (quotients var monomials).map Monomial.exponents =
      ((having var monomials).map Monomial.exponents).map
        (List.modify · var (· - commonPower var monomials)) := by
    rw [quotients, List.map_map, List.map_map]
    rfl
  rw [lowered]
  apply List.Nodup.map_on _ inside
  intro first listed second alsoListed equal
  obtain ⟨m, present, rfl⟩ := List.mem_map.mp listed
  obtain ⟨other, alsoPresent, rfl⟩ := List.mem_map.mp alsoListed
  exact modify_sub_inj (commonPower_le present) (commonPower_le alsoPresent) equal

theorem exists_greedy_of_nodup (present : monomials ≠ []) (uniform : ∀ m ∈ monomials, m.dim = dim)
    (distinct : (monomials.map Monomial.exponents).Nodup) :
    ∃ nest, greedy (Rule.exact α dim) monomials = some nest := by
  induction monomials using greedy.induct (Rule.exact α dim) with
  | case1 m => exact ⟨_, greedy_singleton _ m⟩
  | case2 monomials several stuck =>
      obtain ⟨first, _ | ⟨second, others⟩, rfl⟩ := List.exists_cons_of_ne_nil present
      · exact absurd rfl (several first)
      · -- Two monomials in which no variable occurs are alike.
        have one := exponents_of_stuck uniform List.mem_cons_self stuck
        have other := exponents_of_stuck uniform
          (List.mem_cons_of_mem first (List.mem_cons_self (l := others))) stuck
        simp [one, other] at distinct
  | case3 monomials several var leading innerIh outerIh =>
      have innerPresent : quotients var monomials ≠ [] := by
        rw [quotients, ne_eq, List.map_eq_nil_iff]
        exact having_ne_nil ((Rule.exact α dim).occurs leading)
      obtain ⟨factored, inner⟩ := innerIh innerPresent (dim_of_mem_quotients uniform)
        (nodup_quotients distinct)
      rw [greedy_leading several leading, inner, Option.bind_some]
      by_cases whole : lacking var monomials = []
      · exact ⟨_, if_pos (by simpa using whole)⟩
      · have outside : ((lacking var monomials).map Monomial.exponents).Nodup :=
          List.Nodup.sublist (List.filter_sublist.map _) distinct
        obtain ⟨rest, outer⟩ := outerIh whole (dim_of_mem_lacking uniform) outside
        rw [if_neg (by simpa using whole), outer]
        exact ⟨_, rfl⟩

theorem length_le_countNodes {rule : Rule α dim} (found : greedy rule monomials = some nest) :
    monomials.length ≤ nest.countNodes := by
  rw [← countLeaves_greedyForm (greedyForm_of_greedy found)]
  exact countLeaves_le_countNodes nest

section
variable (fits : ∀ m ∈ monomials, m.Fits)
include fits

theorem greedy_wrapped_of_exact (found : greedy (Rule.exact α dim) monomials = some nest)
    (room : nest.countNodes ≤ nodeLimit) : greedy (Rule.wrapped α dim) monomials = some nest := by
  -- A form that has room has few leaves, so the sums of its monomials fit.
  have short := length_le_countNodes found
  have limit : nodeLimit ≤ UInt32.size := Nat.sub_le _ _
  rw [greedy_wrapped_eq (sumsFit_of_fits fits (by omega))]
  exact found

theorem blocked_iff : Blocked dim 0 monomials ↔
    ∀ nest, greedy (Rule.exact α dim) monomials = some nest → nodeLimit < nest.countNodes := by
  constructor
  · intro blocked nest found
    by_contra room
    have crowded := blocked nest (greedy_wrapped_of_exact fits found (by omega))
    omega
  · intro none nest found
    by_contra room
    have short := length_le_countNodes found
    have limit : nodeLimit ≤ UInt32.size := Nat.sub_le _ _
    rw [greedy_wrapped_eq (sumsFit_of_fits fits (by omega))] at found
    have crowded := none nest found
    omega

end

/-- What comes out as a nested form is known beforehand, but for whether its tree has room. -/
theorem outcome_eq_ok_iff (options : FactoringOptions) (fits : ∀ m ∈ monomials, m.Fits) :
    (∃ form, (factorMonomials options dim monomials).outcome = .ok form) ↔
      monomials ≠ [] ∧ (∀ m ∈ monomials, m.dim = dim) ∧
        (monomials.map Monomial.exponents).Nodup ∧
        ∀ nest, greedy (Rule.exact α dim) monomials = some nest → nest.countNodes ≤ nodeLimit := by
  constructor
  · rintro ⟨form, built⟩
    obtain ⟨present, uniform, free⟩ := free_of_outcome_eq_ok built
    obtain ⟨tree, shape, -⟩ := greedyForm_of_not_blocked free
    refine ⟨present, uniform, nodup_of_greedyForm shape, ?_⟩
    intro nest found
    by_contra crowded
    apply free
    rw [blocked_iff fits]
    intro other alsoFound
    cases found.symm.trans alsoFound
    omega
  · rintro ⟨present, uniform, distinct, room⟩
    obtain ⟨nest, found⟩ := exists_greedy_of_nodup present uniform distinct
    have small := room nest found
    have shape := greedyForm_of_greedy (greedy_wrapped_of_exact fits found small)
    exact ⟨_, outcome_of_greedyForm options shape present uniform small⟩

theorem sumsFit_of_room (fits : ∀ m ∈ monomials, m.Fits) (room : weight monomials ≤ nodeLimit) :
    SumsFit monomials := by
  have short := length_le_weight monomials
  have limit : nodeLimit ≤ UInt32.size := Nat.sub_le _ _
  exact sumsFit_of_fits fits (by omega)

/-- With room for a node per monomial and nonzero exponent, distinct exponents are all that is needed. -/
theorem exists_outcome_eq_ok (options : FactoringOptions) (present : monomials ≠ [])
    (uniform : ∀ m ∈ monomials, m.dim = dim)
    (distinct : (monomials.map Monomial.exponents).Nodup) (fits : ∀ m ∈ monomials, m.Fits)
    (room : weight monomials ≤ nodeLimit) :
    ∃ form, (factorMonomials options dim monomials).outcome = .ok form := by
  by_cases blocked : Blocked dim 0 monomials
  · rcases outcome_of_blocked options blocked present uniform with
      ⟨-, crowded⟩ | ⟨first, second, -, places⟩
    · omega
    · exact absurd distinct (not_nodup_of_repeatedAt (places (sumsFit_of_room fits room)))
  · obtain ⟨nest, shape, small⟩ := greedyForm_of_not_blocked blocked
    exact ⟨_, outcome_of_greedyForm options shape present uniform (by omega)⟩

end NestedPoly
