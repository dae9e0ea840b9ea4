import Mathlib
import NestedPoly.Proofs.CostAccount

/-! How large a nested form is.

A split takes the smallest power of its variable out of some monomial for good, so each node and each
power that a leaf lists can be charged to a nonzero exponent of its own. How large the exponents are
does not matter. -/

namespace NestedPoly

variable {α : Type} {dim var : Nat} {rule : Rule α dim} {monomials : List (Monomial α)}
  {nest : Nest α}

def Node.countPowers : Node α → Nat
  | leaf _ powers => powers.length
  | factor .. => 0

namespace Arena

def countFactors (arena : Arena α) : Nat := arena.nodes.countP fun node => !node.isLeaf

def countPowers (arena : Arena α) : Nat := sumOf (arena.nodes.toList.map Node.countPowers)

end Arena

def Nest.countPowers : Nest α → Nat
  | leaf _ powers => powers.length
  | scaled _ _ factored => factored.countPowers
  | joined _ _ factored rest => factored.countPowers + rest.countPowers

def nonzeroExponents (monomials : List (Monomial α)) : Nat :=
  sumOf (monomials.map Monomial.support)

namespace Arena

theorem size_eq_add (arena : Arena α) : arena.size = arena.countLeaves + arena.countFactors := by
  have parts : arena.nodes.size = arena.nodes.countP Node.isLeaf +
      arena.nodes.countP fun node => decide ¬ node.isLeaf = true :=
    Array.size_eq_countP_add_countP
  simp only [Bool.not_eq_true, Bool.decide_eq_false] at parts
  exact parts

theorem countFactors_eq_of_oneTree {arena : Arena α} (tree : OneTree arena.nodes)
    (found : arena.nest? = some nest) : arena.countFactors = nest.splits.length := by
  rw [countFactors, ← Array.countP_toList, countP_eq_sumOf]
  refine sumOf_nodes_eq tree found _ (fun nest => nest.splits.length) (fun _ _ => rfl) ?_ ?_
  · intro var power i inner _
    simp [Node.isLeaf, Nest.splits, Nat.add_comm]
  · intro var power i j inner outer _ _
    simp [Node.isLeaf, Nest.splits, Nat.add_comm]

theorem countPowers_eq_of_oneTree {arena : Arena α} (tree : OneTree arena.nodes)
    (found : arena.nest? = some nest) : arena.countPowers = nest.countPowers := by
  refine sumOf_nodes_eq tree found _ Nest.countPowers (fun _ _ => rfl) ?_ ?_
  · intro var power i inner _
    simp [Node.countPowers, Nest.countPowers]
  · intro var power i j inner outer _ _
    simp [Node.countPowers, Nest.countPowers]

end Arena

theorem length_nonzeroPowers (exponents : List Nat) :
    (nonzeroPowers exponents).length = exponents.countP (0 < ·) := by
  have each : exponents.countP (0 < ·) =
      (exponents.zipIdx.map Prod.fst).countP (0 < ·) := by rw [List.zipIdx_map_fst]
  rw [nonzeroPowers, List.length_filterMap_eq_countP, each, List.countP_map]
  apply List.countP_congr
  intro entry _
  simp [Option.isSome_ite]

theorem weight_eq_add (monomials : List (Monomial α)) :
    weight monomials = monomials.length + nonzeroExponents monomials := by
  induction monomials with
  | nil => rfl
  | cons m rest ih =>
      simp only [weight, nonzeroExponents, List.map_cons, sumOf_cons, List.length_cons] at ih ⊢
      omega

/-- A split leaves fewer nonzero exponents, on both sides together. -/
theorem nonzeroExponents_sides (occurs : 0 < degreeIn monomials var) :
    nonzeroExponents (quotients var monomials) + nonzeroExponents (lacking var monomials) + 1 ≤
      nonzeroExponents monomials := by
  have lighter := weight_sides_lt occurs
  have lengths := length_sides var monomials
  rw [weight_eq_add, weight_eq_add, weight_eq_add] at lighter
  omega

theorem splits_add_powers_le (form : GreedyForm rule monomials nest) :
    nest.splits.length + nest.countPowers ≤ nonzeroExponents monomials := by
  induction form with
  | leaf m =>
      have powers : m.powers.length = m.support := length_nonzeroPowers m.exponents
      simp [Nest.splits, Nest.countPowers, nonzeroExponents, powers]
  | @scaled monomials var factored several leading whole inner ih =>
      have fewer := nonzeroExponents_sides (rule.occurs leading)
      rw [Nest.splits, Nest.countPowers, List.length_cons]
      omega
  | @joined monomials var factored rest several leading divided inner outer innerIh outerIh =>
      have fewer := nonzeroExponents_sides (rule.occurs leading)
      rw [Nest.splits, Nest.countPowers, List.length_cons, List.length_append]
      omega

/-- A form has a leaf for each monomial, and its other nodes and the powers that its leaves list are
together no more than the nonzero exponents. -/
theorem size_bounded_by_nonzero_exponents {options : FactoringOptions} {form : NestedForm α}
    (built : (factorMonomials options dim monomials).outcome = .ok form) :
    form.arena.countLeaves = monomials.length ∧
      form.arena.countFactors + form.arena.countPowers ≤ nonzeroExponents monomials ∧
      form.arena.size ≤ monomials.length + nonzeroExponents monomials := by
  rcases greedyForm_of_outcome_eq_ok built with ⟨_, _, nest, shape, _, rfl⟩
  have tree := oneTree_arena nest
  have found := nest.nest?_arena
  have charged := splits_add_powers_le shape
  have leaves : nest.arena.countLeaves = monomials.length := by
    rw [Arena.countLeaves_eq_of_oneTree tree found, countLeaves_greedyForm shape]
  have total := nest.arena.size_eq_add
  rw [← Arena.countFactors_eq_of_oneTree tree found,
    ← Arena.countPowers_eq_of_oneTree tree found] at charged
  refine ⟨leaves, charged, ?_⟩
  change nest.arena.size ≤ _
  omega

theorem size_bounded_by_nonzero_exponents_three : ∃ form : NestedForm Int,
    (factorMonomials ⟨true, true⟩ 2
      [⟨5, [4294967295, 1]⟩, ⟨3, [4294967294, 0]⟩, ⟨7, [0, 4294967295]⟩]).outcome = .ok form ∧
      form.arena.countLeaves = 3 ∧ form.arena.countFactors + form.arena.countPowers ≤ 4 ∧
      form.arena.size ≤ 7 := by
  have uniform : ∀ m ∈ [⟨(5 : Int), [4294967295, 1]⟩, ⟨3, [4294967294, 0]⟩,
      (⟨7, [0, 4294967295]⟩ : Monomial Int)], m.dim = 2 := by decide
  obtain ⟨form, built⟩ := exists_outcome_eq_ok ⟨true, true⟩ (by decide) uniform (by decide)
    (by decide) (by decide)
  exact ⟨form, built, size_bounded_by_nonzero_exponents built⟩

end NestedPoly
