import Mathlib
import NestedPoly.Proofs.ExactEvaluation
import NestedPoly.Proofs.Positions

/-! What a nested form costs, and what it saves.

In direct summation the power that is taken out at a node is multiplied to each leaf below it, in
nested form to their sum. So the node saves the power as often as there are leaves below it, but one.
Nothing else changes: the leaves keep their powers, and as many sums are joined. -/

namespace NestedPoly

variable {α : Type}

namespace Cost

@[simp] theorem multiplications_add (a b : Cost) :
    (a + b).multiplications = a.multiplications + b.multiplications := rfl

@[simp] theorem additions_add (a b : Cost) : (a + b).additions = a.additions + b.additions := rfl

@[simp] theorem multiplications_scaling (k : Nat) : (scaling k).multiplications = k := rfl

@[simp] theorem additions_scaling (k : Nat) : (scaling k).additions = 0 := rfl

@[simp] theorem multiplications_joining : joining.multiplications = 0 := rfl

@[simp] theorem additions_joining : joining.additions = 1 := rfl

theorem multiplications_sum_scaling (powers : List (Nat × Nat)) :
    (powers.map (fun (_, exponent) => scaling exponent : Nat × Nat → Cost)).sum.multiplications =
      sumOf (powers.map Prod.snd) := by
  induction powers with
  | nil => rfl
  | cons power powers ih =>
      rw [List.map_cons, List.sum_cons, multiplications_add, ih]
      rfl

theorem additions_sum_scaling (powers : List (Nat × Nat)) :
    (powers.map (fun (_, exponent) => scaling exponent : Nat × Nat → Cost)).sum.additions = 0 := by
  induction powers with
  | nil => rfl
  | cons power powers ih =>
      rw [List.map_cons, List.sum_cons, additions_add, ih]
      rfl

end Cost

namespace Arena

theorem foldl_cost_eq (nodes : List (Node α)) (start : Cost) :
    nodes.foldl (fun sum node => sum + node.cost) start =
      ⟨start.multiplications + sumOf (nodes.map fun node => node.cost.multiplications),
        start.additions + sumOf (nodes.map fun node => node.cost.additions)⟩ := by
  induction nodes generalizing start with
  | nil => rfl
  | cons node nodes ih =>
      rw [List.foldl_cons, ih]
      simp only [Cost.multiplications_add, Cost.additions_add, List.map_cons, sumOf_cons,
        Nat.add_assoc]

theorem cost_eq_sumOf (arena : Arena α) :
    arena.cost = ⟨sumOf (arena.nodes.toList.map fun node => node.cost.multiplications),
      sumOf (arena.nodes.toList.map fun node => node.cost.additions)⟩ := by
  rw [cost, ← Array.foldl_toList, foldl_cost_eq]
  simp only [show (0 : Cost) = ⟨0, 0⟩ from rfl, Nat.zero_add]

theorem cost_eq_of_oneTree {arena : Arena α} {nest : Nest α} (tree : OneTree arena.nodes)
    (found : arena.nest? = some nest) : arena.cost = nest.cost := by
  have multiplications := sumOf_nodes_eq tree found (fun node => node.cost.multiplications)
    (fun nest => nest.cost.multiplications) (fun _ _ => rfl) (fun _ _ _ _ _ => rfl)
    (fun _ _ _ _ _ _ _ _ => Nat.add_assoc _ _ _)
  have additions := sumOf_nodes_eq tree found (fun node => node.cost.additions)
    (fun nest => nest.cost.additions) (fun _ _ => rfl) (fun _ _ _ _ _ => rfl)
    (fun _ _ _ _ _ _ _ _ => Nat.add_assoc _ _ _)
  rw [cost_eq_sumOf, multiplications, additions]

theorem countP_eq_sumOf {τ : Type} (property : τ → Bool) (entries : List τ) :
    entries.countP property = sumOf (entries.map fun entry => if property entry then 1 else 0) := by
  induction entries with
  | nil => rfl
  | cons entry entries ih => rw [List.countP_cons, List.map_cons, sumOf_cons, ih, Nat.add_comm]

theorem countLeaves_eq_of_oneTree {arena : Arena α} {nest : Nest α} (tree : OneTree arena.nodes)
    (found : arena.nest? = some nest) : arena.countLeaves = nest.countLeaves := by
  rw [countLeaves, ← Array.countP_toList, countP_eq_sumOf]
  refine sumOf_nodes_eq tree found _ Nest.countLeaves (fun _ _ => rfl) ?_ ?_
  · intro var power i inner _
    simp [Node.isLeaf, Nest.countLeaves]
  · intro var power i j inner outer _ _
    simp [Node.isLeaf, Nest.countLeaves]

def leavesBelow (nodes : Array (Node α)) (i : Nat) : Nat := (nestAt? nodes i).elim 0 Nest.countLeaves

end Arena

/-- What a node saves: its power, for all but one of the leaves of the factored branch. -/
def Node.saving (nodes : Array (Node α)) : Node α → Nat
  | .leaf .. => 0
  | .factor _ power factored _ => power * (Arena.leavesBelow nodes factored - 1)

def Arena.saving (arena : Arena α) : Nat :=
  sumOf (arena.nodes.toList.map (Node.saving arena.nodes))

namespace Nest

def saving : Nest α → Nat
  | leaf .. => 0
  | scaled _ power factored => power * (factored.countLeaves - 1) + factored.saving
  | joined _ power factored rest =>
    power * (factored.countLeaves - 1) + (factored.saving + rest.saving)

def degrees (nest : Nest α) : List Nat := nest.expand.map fun term => sumOf (term.2.map Prod.snd)

end Nest

theorem Arena.saving_eq_of_oneTree {arena : Arena α} {nest : Nest α} (tree : OneTree arena.nodes)
    (found : arena.nest? = some nest) : arena.saving = nest.saving := by
  refine sumOf_nodes_eq tree found _ Nest.saving (fun _ _ => rfl) ?_ ?_
  · intro var power i inner under
    simp [Node.saving, Arena.leavesBelow, Nest.saving, under]
  · intro var power i j inner outer under _
    simp [Node.saving, Arena.leavesBelow, Nest.saving, under]

theorem sumOf_map_add (power : Nat) (degrees : List Nat) :
    sumOf (degrees.map (power + ·)) = power * degrees.length + sumOf degrees := by
  induction degrees with
  | nil => rfl
  | cons degree degrees ih =>
      rw [List.map_cons, sumOf_cons, sumOf_cons, ih, List.length_cons, Nat.mul_succ]
      omega

theorem sumOf_append (first second : List Nat) :
    sumOf (first ++ second) = sumOf first + sumOf second := by
  rw [sumOf_eq_sum, sumOf_eq_sum, sumOf_eq_sum, List.sum_append]

namespace Nest

theorem degrees_scaled (var power : Nat) (factored : Nest α) :
    (scaled var power factored).degrees = factored.degrees.map (power + ·) := by
  rw [degrees, degrees, expand, List.map_map, List.map_map]
  rfl

theorem degrees_joined (var power : Nat) (factored rest : Nest α) :
    (joined var power factored rest).degrees =
      factored.degrees.map (power + ·) ++ rest.degrees := by
  rw [degrees, expand, List.map_append]
  exact congrArg (· ++ rest.degrees) (degrees_scaled var power factored)

theorem length_degrees (nest : Nest α) : nest.degrees.length = nest.countLeaves := by
  induction nest with
  | leaf coefficient powers => rfl
  | scaled var power factored ih => rw [degrees_scaled, List.length_map, ih, countLeaves]
  | joined var power factored rest innerIh outerIh =>
      rw [degrees_joined, List.length_append, List.length_map, innerIh, outerIh, countLeaves]

theorem countLeaves_pos (nest : Nest α) : 0 < nest.countLeaves := by
  induction nest with
  | leaf => exact Nat.one_pos
  | scaled var power factored ih => exact ih
  | joined var power factored rest innerIh outerIh => exact Nat.add_pos_left innerIh _

/-- The power of a node, once for the sum and once saved for each further leaf. -/
theorem power_mul_countLeaves (power : Nat) (nest : Nest α) :
    power + power * (nest.countLeaves - 1) = power * nest.countLeaves := by
  have positive := nest.countLeaves_pos
  calc power + power * (nest.countLeaves - 1)
    _ = power * (nest.countLeaves - 1 + 1) := by rw [Nat.mul_succ, Nat.add_comm]
    _ = power * nest.countLeaves := by rw [Nat.sub_add_cancel positive]

theorem additions_cost (nest : Nest α) : nest.cost.additions + 1 = nest.countLeaves := by
  induction nest with
  | leaf coefficient powers =>
      rw [cost, Cost.additions_sum_scaling]
      rfl
  | scaled var power factored ih =>
      rw [cost, Cost.additions_add, Cost.additions_scaling, Nat.zero_add, ih, countLeaves]
  | joined var power factored rest innerIh outerIh =>
      rw [cost, countLeaves, ← innerIh, ← outerIh]
      simp only [Cost.additions_add, Cost.additions_scaling, Cost.additions_joining]
      omega

theorem multiplications_add_saving (nest : Nest α) :
    nest.cost.multiplications + nest.saving = sumOf nest.degrees := by
  induction nest with
  | leaf coefficient powers =>
      rw [cost, Cost.multiplications_sum_scaling]
      rfl
  | scaled var power factored ih =>
      have split := power_mul_countLeaves power factored
      rw [degrees_scaled, sumOf_map_add, length_degrees, ← ih, ← split, cost, saving,
        Cost.multiplications_add, Cost.multiplications_scaling]
      omega
  | joined var power factored rest innerIh outerIh =>
      have split := power_mul_countLeaves power factored
      rw [degrees_joined, sumOf_append, sumOf_map_add, length_degrees, ← innerIh, ← outerIh,
        ← split, cost, saving]
      simp only [Cost.multiplications_add, Cost.multiplications_scaling,
        Cost.multiplications_joining]
      omega

end Nest

/-- The account of an arena: as many sums as leaves but one, and as many multiplications, with those
that are saved, as the terms of the expansion have together. -/
def Arena.Accounted (arena : Arena α) : Prop :=
  arena.cost.additions + 1 = arena.countLeaves ∧
    ∃ nest, arena.nest? = some nest ∧
      arena.cost.multiplications + arena.saving = sumOf nest.degrees

theorem accounted_of_oneTree {arena : Arena α} (tree : OneTree arena.nodes) : arena.Accounted := by
  rcases Arena.exists_nest?_of_oneTree tree with ⟨nest, found⟩
  rw [Arena.Accounted, Arena.cost_eq_of_oneTree tree found,
    Arena.countLeaves_eq_of_oneTree tree found, Arena.saving_eq_of_oneTree tree found]
  exact ⟨nest.additions_cost, nest, found, nest.multiplications_add_saving⟩

theorem sumOf_modify_add {exponents : List Nat} {var : Nat} (power : Nat)
    (inside : var < exponents.length) :
    sumOf (exponents.modify var (· + power)) = power + sumOf exponents := by
  induction exponents generalizing var with
  | nil => simp at inside
  | cons exponent exponents ih =>
      cases var with
      | zero =>
          rw [List.modify_zero_cons, sumOf_cons, sumOf_cons]
          omega
      | succ var =>
          rw [List.modify_succ_cons, sumOf_cons, sumOf_cons, ih (by simpa using inside)]
          omega

theorem sumOf_exponentVector {dim : Nat} {powers : List (Nat × Nat)}
    (named : ∀ power ∈ powers, power.1 < dim) :
    sumOf (exponentVector dim powers) = sumOf (powers.map Prod.snd) := by
  induction powers with
  | nil =>
      apply List.sum_eq_zero
      intro entry member
      rcases List.mem_map.mp member with ⟨var, _, rfl⟩
      rfl
  | cons power powers ih =>
      rcases List.forall_mem_cons.mp named with ⟨below, others⟩
      have inside : power.1 < (exponentVector dim powers).length := by
        simpa [exponentVector] using below
      rw [exponentVector_cons, sumOf_modify_add power.2 inside, ih others]
      rfl

theorem degrees_monomials {dim : Nat} {nest : Nest α}
    (named : ∀ var ∈ nest.namedVariables, var < dim) :
    (nest.monomials dim).map Monomial.degree = nest.degrees := by
  rw [Nest.monomials, Nest.degrees, List.map_map]
  apply List.map_congr_left
  intro term member
  exact sumOf_exponentVector fun power listed =>
    named power.1 (mem_namedVariables_of_expand member listed)

variable {dim : Nat} {monomials : List (Monomial α)}

theorem cost_against_termByTerm {options : FactoringOptions} {form : NestedForm α}
    (built : (factorMonomials options dim monomials).outcome = .ok form) :
    OneTree form.arena.nodes ∧
      form.cost.additions = (Cost.termByTerm (monomials.map Monomial.degree)).additions ∧
      form.cost.multiplications + form.arena.saving =
        (Cost.termByTerm (monomials.map Monomial.degree)).multiplications := by
  rcases greedyForm_of_outcome_eq_ok built with ⟨_, uniform, nest, shape, _, rfl⟩
  have tree := oneTree_arena nest
  have found := nest.nest?_arena
  have degrees : (nest.degrees).Perm (monomials.map Monomial.degree) := by
    rw [← degrees_monomials (namedVariables_lt shape uniform)]
    exact (monomials_greedyForm shape uniform).map Monomial.degree
  refine ⟨tree, ?_, ?_⟩
  · have leaves := nest.additions_cost
    rw [countLeaves_greedyForm shape] at leaves
    calc nest.arena.cost.additions
      _ = nest.cost.additions := by rw [Arena.cost_eq_of_oneTree tree found]
      _ = monomials.length - 1 := by omega
      _ = (monomials.map Monomial.degree).length - 1 := by rw [List.length_map]
  · calc nest.arena.cost.multiplications + nest.arena.saving
      _ = nest.cost.multiplications + nest.saving := by
        rw [Arena.cost_eq_of_oneTree tree found, Arena.saving_eq_of_oneTree tree found]
      _ = sumOf nest.degrees := nest.multiplications_add_saving
      _ = sumOf (monomials.map Monomial.degree) := degrees.sum_eq

/-- The account holds of every arena that is accepted and of every form that is built, and a form
never costs more than direct summation. -/
theorem nested_never_costs_more :
    (∀ (nodes : Array (Node α)) arena, Arena.ofNodes nodes = .ok arena → arena.Accounted) ∧
    (∀ options dim (monomials : List (Monomial α)) form,
      (factorMonomials options dim monomials).outcome = .ok form →
        form.arena.Accounted ∧ form.cost = form.arena.cost ∧
          form.cost.additions = (Cost.termByTerm (monomials.map Monomial.degree)).additions ∧
          form.cost.multiplications + form.arena.saving =
            (Cost.termByTerm (monomials.map Monomial.degree)).multiplications ∧
          form.cost.multiplications ≤
            (Cost.termByTerm (monomials.map Monomial.degree)).multiplications) ∧
    ∀ (poly : SparsePoly α) options form, (poly.factor options).outcome = .ok form →
      form.cost.total ≤ poly.cost.total := by
  refine ⟨?_, ?_, ?_⟩
  · intro nodes arena accepted
    rcases Arena.ofNodes_eq_ok_iff.mp accepted with ⟨⟨_, tree⟩, rfl⟩
    exact accounted_of_oneTree tree
  · intro options dim monomials form built
    rcases cost_against_termByTerm built with ⟨tree, additions, multiplications⟩
    rcases greedyForm_of_outcome_eq_ok built with ⟨_, _, nest, _, _, rfl⟩
    exact ⟨accounted_of_oneTree tree, rfl, additions, multiplications, by omega⟩
  · intro poly options form built
    rcases cost_against_termByTerm built with ⟨_, additions, multiplications⟩
    rw [SparsePoly.cost, Cost.total, Cost.total]
    omega

theorem nested_never_costs_more_three :
    (Arena.ofNodes #[.leaf (3 : Int) [(1, 1)], .leaf 1 [], .factor 0 2 0 (some 1)] =
        .ok ⟨#[.leaf 3 [(1, 1)], .leaf 1 [], .factor 0 2 0 (some 1)]⟩ ∧
      Arena.Accounted ⟨#[.leaf (3 : Int) [(1, 1)], .leaf 1 [], .factor 0 2 0 (some 1)]⟩) ∧
    ∃ form : NestedForm Int,
      (factorMonomials ⟨true, true⟩ 2 [⟨5, [2, 1]⟩, ⟨3, [1, 0]⟩, ⟨7, [0, 1]⟩]).outcome = .ok form ∧
        (form.cost.additions = 2 ∧ form.cost.multiplications + form.arena.saving = 5) ∧
        form.cost.total ≤ (SparsePoly.mk
          [⟨(5 : Int), [2, 1]⟩, ⟨3, [1, 0]⟩, ⟨7, [0, 1]⟩] 2 [2, 1] true).cost.total := by
  have accepted : Arena.ofNodes #[.leaf (3 : Int) [(1, 1)], .leaf 1 [], .factor 0 2 0 (some 1)] =
      .ok ⟨#[.leaf 3 [(1, 1)], .leaf 1 [], .factor 0 2 0 (some 1)]⟩ := by decide
  have built : (factorMonomials ⟨true, true⟩ 2
      [⟨(5 : Int), [2, 1]⟩, ⟨3, [1, 0]⟩, ⟨7, [0, 1]⟩]).outcome =
        .ok ⟨⟨#[.leaf 5 [(1, 1)], .leaf 3 [], .factor 0 1 0 (some 1), .leaf 7 [(1, 1)],
          .factor 0 1 2 (some 3)]⟩, 2, ⟨4, 2⟩, true⟩ := by cbv
  have account := (nested_never_costs_more.2.1 _ _ _ _ built).2.2
  have total := nested_never_costs_more.2.2 ⟨_, 2, [2, 1], true⟩ ⟨true, true⟩ _ built
  exact ⟨⟨accepted, nested_never_costs_more.1 _ _ accepted⟩, _, built,
    ⟨account.1, account.2.1⟩, total⟩

end NestedPoly
