import Mathlib
import NestedPoly.Proofs.Queries

/-! Polynomials in one variable.

Each split takes a power out of all terms that still have the variable, and what is left over is a
constant, if anything. So the splits go down the exponents in ascending order, each by the distance to
the one before: the powers add up to the largest exponent, and there is one node for each exponent
that is not zero. -/

namespace NestedPoly

variable {α : Type} {dim var : Nat} {rule : Rule α dim} {monomials : List (Monomial α)}
  {nest : Nest α}

def Monomial.OnlyIn (var : Nat) (m : Monomial α) : Prop :=
  ∀ other, other ≠ var → m.exponent other = 0

theorem onlyIn_of_dim_eq_one {m : Monomial α} (one : m.dim = 1) : m.OnlyIn 0 := by
  intro other different
  have beyond : m.exponents.length ≤ other := by
    rw [← Monomial.dim, one]
    omega
  exact List.getD_eq_default _ _ beyond

theorem onlyIn_of_mem_quotients (only : ∀ m ∈ monomials, m.OnlyIn var) :
    ∀ m ∈ quotients var monomials, m.OnlyIn var := by
  intro m member other different
  rcases List.mem_map.mp member with ⟨original, inside, rfl⟩
  rw [exponent_quotient, only original (List.mem_of_mem_filter inside) other different, Nat.zero_sub]

theorem onlyIn_of_mem_lacking (only : ∀ m ∈ monomials, m.OnlyIn var) :
    ∀ m ∈ lacking var monomials, m.OnlyIn var :=
  fun m member => only m (List.mem_of_mem_filter member)

theorem eq_of_occurs {other : Nat} (occurs : 0 < degreeIn monomials other)
    (only : ∀ m ∈ monomials, m.OnlyIn var) : other = var := by
  by_contra different
  rcases exists_exponent_pos monomials other occurs with ⟨m, member, positive⟩
  have := only m member other different
  omega

theorem exponent_quotient_self (power : Nat) (m : Monomial α) :
    (m.quotient var power).exponent var = m.exponent var - power := by
  rw [exponent_quotient, if_pos rfl]

theorem distinct_quotients (distinct : (monomials.map (Monomial.exponent · var)).Nodup) :
    ((quotients var monomials).map (Monomial.exponent · var)).Nodup := by
  have inside : ((having var monomials).map (Monomial.exponent · var)).Nodup :=
    List.Nodup.sublist (List.filter_sublist.map _) distinct
  have lowered : (quotients var monomials).map (Monomial.exponent · var) =
      ((having var monomials).map (Monomial.exponent · var)).map
        (· - commonPower var monomials) := by
    rw [quotients, List.map_map, List.map_map]
    apply List.map_congr_left
    intro m _
    exact exponent_quotient_self _ m
  rw [lowered]
  apply List.Nodup.map_on _ inside
  intro first listed second alsoListed equal
  rcases List.mem_map.mp listed with ⟨m, present, rfl⟩
  rcases List.mem_map.mp alsoListed with ⟨other, alsoPresent, rfl⟩
  have enough := commonPower_le present
  have also := commonPower_le alsoPresent
  omega

theorem sumOf_eq_getD {exponents : List Nat}
    (only : ∀ other, other ≠ var → exponents.getD other 0 = 0) :
    sumOf exponents = exponents.getD var 0 := by
  induction exponents generalizing var with
  | nil => rfl
  | cons exponent rest ih =>
      cases var with
      | zero =>
          have zeros : sumOf rest = 0 := by
            apply List.sum_eq_zero
            intro entry member
            rcases List.getElem_of_mem member with ⟨place, inside, rfl⟩
            have zero := only (place + 1) (by omega)
            rwa [List.getD_cons_succ, List.getD_eq_getElem _ _ inside] at zero
          rw [sumOf_cons, zeros, Nat.add_zero, List.getD_cons_zero]
      | succ var =>
          have first : exponent = 0 := only 0 (by omega)
          have others : ∀ other, other ≠ var → rest.getD other 0 = 0 := by
            intro other different
            exact only (other + 1) (by omega)
          rw [sumOf_cons, first, Nat.zero_add, List.getD_cons_succ, ih others]

theorem sumOf_powers (m : Monomial α) : sumOf (m.powers.map Prod.snd) = m.degree := by
  have named : ∀ power ∈ m.powers, power.1 < m.exponents.length := by
    intro power listed
    exact (List.getElem?_eq_some_iff.mp (mem_nonzeroPowers.mp listed).1).1
  rw [← sumOf_exponentVector named, Monomial.powers, exponentVector_nonzeroPowers]
  rfl

/-- What is the largest exponent after a split was larger by the power before. -/
theorem max?_of_quotients {largest : Nat}
    (inner : ((quotients var monomials).map (Monomial.exponent · var)).max? = some largest) :
    (monomials.map (Monomial.exponent · var)).max? =
      some (commonPower var monomials + largest) := by
  rw [List.max?_eq_some_iff, List.forall_mem_map] at inner ⊢
  rcases inner with ⟨attained, upper⟩
  constructor
  · rcases List.mem_map.mp attained with ⟨_, inside, rfl⟩
    rcases List.mem_map.mp inside with ⟨m, present, rfl⟩
    have enough := commonPower_le present
    refine List.mem_map.mpr ⟨m, List.mem_of_mem_filter present, ?_⟩
    rw [exponent_quotient_self]
    omega
  · intro m member
    by_cases present : 0 < m.exponent var
    · have inside : m ∈ having var monomials := List.mem_filter.mpr ⟨member, by simpa using present⟩
      have below := upper _ (List.mem_map.mpr ⟨m, inside, rfl⟩)
      rw [exponent_quotient_self] at below
      omega
    · omega

theorem multiplications_univariate (form : GreedyForm rule monomials nest)
    (only : ∀ m ∈ monomials, m.OnlyIn var) :
    (monomials.map (Monomial.exponent · var)).max? = some nest.cost.multiplications := by
  induction form with
  | leaf m =>
      have degree : m.degree = m.exponent var := sumOf_eq_getD (only m (List.mem_singleton.mpr rfl))
      rw [Nest.cost, Cost.multiplications_sum_scaling, sumOf_powers, degree]
      rfl
  | @scaled monomials leader factored several leading whole inner ih =>
      cases eq_of_occurs (rule.occurs leading) only
      exact max?_of_quotients (ih (onlyIn_of_mem_quotients only))
  | @joined monomials leader factored rest several leading divided inner outer innerIh outerIh =>
      cases eq_of_occurs (rule.occurs leading) only
      have taken := max?_of_quotients (innerIh (onlyIn_of_mem_quotients only))
      have outside := outerIh (onlyIn_of_mem_lacking only)
      rcases List.mem_map.mp (List.max?_mem outside) with ⟨m, absent, constant⟩
      rw [exponent_eq_zero_of_mem_lacking absent] at constant
      rw [taken, Nest.cost]
      simp [← constant]

theorem zero_mem_quotients (occurs : 0 < degreeIn monomials var) :
    0 ∈ (quotients var monomials).map (Monomial.exponent · var) := by
  rcases exists_exponent_eq_commonPower occurs with ⟨m, inside, least⟩
  refine List.mem_map.mpr ⟨_, List.mem_map.mpr ⟨m, inside, rfl⟩, ?_⟩
  rw [exponent_quotient_self, least, Nat.sub_self]

/-- Exponents that differ are brought to zero one at a time. -/
theorem countP_quotients (occurs : 0 < degreeIn monomials var)
    (distinct : (monomials.map (Monomial.exponent · var)).Nodup) :
    (quotients var monomials).countP (0 < ·.exponent var) + 1 =
      monomials.countP (0 < ·.exponent var) := by
  have once := List.count_eq_one_of_mem (distinct_quotients distinct) (zero_mem_quotients occurs)
  have parts := List.length_eq_countP_add_countP (fun exponent : Nat => decide (0 < exponent))
    (l := (quotients var monomials).map (Monomial.exponent · var))
  have zeros : ((quotients var monomials).map (Monomial.exponent · var)).countP
      (fun exponent => decide ¬ decide (0 < exponent) = true) = 1 := by
    rw [← once, List.count_eq_countP]
    apply List.countP_congr
    intro exponent _
    simp
  have positives : monomials.countP (0 < ·.exponent var) = (quotients var monomials).length := by
    rw [List.countP_eq_length_filter, quotients, List.length_map, having]
  rw [zeros, List.length_map, List.countP_map] at parts
  rw [positives, parts]
  rfl

theorem countP_lacking (var : Nat) (monomials : List (Monomial α)) :
    (lacking var monomials).countP (0 < ·.exponent var) = 0 := by
  rw [List.countP_eq_zero]
  intro m absent
  simp [exponent_eq_zero_of_mem_lacking absent]

theorem depth_univariate (form : GreedyForm rule monomials nest)
    (only : ∀ m ∈ monomials, m.OnlyIn var)
    (distinct : (monomials.map (Monomial.exponent · var)).Nodup)
    (branching : 2 ≤ monomials.length ∨ 0 ∈ monomials.map (Monomial.exponent · var)) :
    nest.depth = 1 + monomials.countP (0 < ·.exponent var) := by
  induction form with
  | leaf m =>
      have constant : m.exponent var = 0 := by simpa [eq_comm] using branching
      simp [Nest.depth, constant]
  | @scaled monomials leader factored several leading whole inner ih =>
      cases eq_of_occurs (rule.occurs leading) only
      rw [Nest.depth, ih (onlyIn_of_mem_quotients only) (distinct_quotients distinct)
        (.inr (zero_mem_quotients (rule.occurs leading))), ← countP_quotients (rule.occurs leading) distinct]
      omega
  | @joined monomials leader factored rest several leading divided inner outer innerIh outerIh =>
      cases eq_of_occurs (rule.occurs leading) only
      have alsoDistinct : ((lacking var monomials).map (Monomial.exponent · var)).Nodup :=
        List.Nodup.sublist (List.filter_sublist.map _) distinct
      have constant : 0 ∈ (lacking var monomials).map (Monomial.exponent · var) := by
        rcases List.exists_mem_of_ne_nil _ divided with ⟨m, absent⟩
        exact List.mem_map.mpr ⟨m, absent, exponent_eq_zero_of_mem_lacking absent⟩
      rw [Nest.depth, innerIh (onlyIn_of_mem_quotients only) (distinct_quotients distinct)
          (.inr (zero_mem_quotients (rule.occurs leading))),
        outerIh (onlyIn_of_mem_lacking only) alsoDistinct (.inr constant), countP_lacking,
        ← countP_quotients (rule.occurs leading) distinct]
      omega

theorem support_of_onlyIn {m : Monomial α} (only : m.OnlyIn var) :
    m.support = if 0 < m.exponent var then 1 else 0 := by
  have each (other : Nat) : (m.exponents.map fun e => if decide (0 < e) then 1 else 0).getD other 0 =
      if decide (0 < m.exponent other) then 1 else 0 :=
    m.exponents.getD_map 0 fun e => if decide (0 < e) then 1 else 0
  rw [Monomial.support, Arena.countP_eq_sumOf, @sumOf_eq_getD var, each]
  · simp
  · intro other different
    rw [each, only other different]
    rfl

theorem weight_of_onlyIn (only : ∀ m ∈ monomials, m.OnlyIn var) :
    weight monomials = monomials.length + monomials.countP (0 < ·.exponent var) := by
  induction monomials with
  | nil => rfl
  | cons m rest ih =>
      obtain ⟨first, others⟩ := List.forall_mem_cons.mp only
      have tail := ih others
      rw [weight] at tail ⊢
      rw [List.map_cons, sumOf_cons, tail, support_of_onlyIn first, List.length_cons,
        List.countP_cons]
      simp only [decide_eq_true_eq]
      omega

/-- A polynomial in one variable costs what Horner's rule costs: as many multiplications as its largest
exponent, and one addition less than it has terms. From two terms on there is one node below the other
for each exponent that is not zero. -/
theorem univariate_costs_as_horner (options : FactoringOptions) (dim var : Nat)
    (monomials : List (Monomial α)) (present : monomials ≠ [])
    (uniform : ∀ m ∈ monomials, m.dim = dim) (only : ∀ m ∈ monomials, m.OnlyIn var)
    (distinct : (monomials.map (Monomial.exponent · var)).Nodup) :
    (∀ form, (factorMonomials options dim monomials).outcome = .ok form →
      (monomials.map (Monomial.exponent · var)).max? = some form.cost.multiplications ∧
      form.cost.additions = monomials.length - 1 ∧
      (2 ≤ monomials.length →
        form.arena.depth = 1 + monomials.countP (0 < ·.exponent var))) ∧
    ((∀ m ∈ monomials, m.Fits) →
      monomials.length + monomials.countP (0 < ·.exponent var) ≤ nodeLimit →
        ∃ form, (factorMonomials options dim monomials).outcome = .ok form) := by
  constructor
  · intro form built
    obtain ⟨-, -, nest, shape, -, rfl⟩ := greedyForm_of_outcome_eq_ok built
    have tree := oneTree_arena nest
    have found := nest.nest?_arena
    have cost : (NestedForm.ofArena nest.arena dim options.checked).cost = nest.cost :=
      Arena.cost_eq_of_oneTree tree found
    refine ⟨?_, ?_, ?_⟩
    · rw [cost]
      exact multiplications_univariate shape only
    · have leaves := nest.additions_cost
      rw [countLeaves_greedyForm shape] at leaves
      rw [cost]
      omega
    · intro two
      rw [← depth_univariate shape only distinct (.inl two)]
      exact Arena.depth_eq_of_oneTree tree found
  · intro fits room
    have unrepeated : (monomials.map Monomial.exponents).Nodup := by
      apply List.Nodup.of_map (List.getD · var 0)
      rw [List.map_map]
      exact distinct
    rw [← weight_of_onlyIn only] at room
    exact exists_outcome_eq_ok options present uniform unrepeated fits room

theorem univariate_costs_as_horner_three : ∃ form : NestedForm Int,
    (factorMonomials ⟨true, true⟩ 1 [⟨5, [9]⟩, ⟨3, [2]⟩, ⟨7, [5]⟩]).outcome = .ok form ∧
      form.cost.multiplications = 9 ∧ form.cost.additions = 2 ∧ form.arena.depth = 4 := by
  have uniform : ∀ m ∈ [⟨(5 : Int), [9]⟩, ⟨3, [2]⟩, (⟨7, [5]⟩ : Monomial Int)], m.dim = 1 := by
    decide
  obtain ⟨costs, success⟩ := univariate_costs_as_horner ⟨true, true⟩ 1 0 _ (by decide) uniform
    (fun m member => onlyIn_of_dim_eq_one (uniform m member)) (by decide)
  obtain ⟨form, built⟩ := success (by decide) (by decide)
  obtain ⟨multiplications, additions, depth⟩ := costs form built
  exact ⟨form, built, (Option.some.inj multiplications).symm, additions, depth (by decide)⟩

end NestedPoly
