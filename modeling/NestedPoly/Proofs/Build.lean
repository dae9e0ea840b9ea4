import Mathlib
import NestedPoly.Proofs.Branch
import NestedPoly.Proofs.Listing
import NestedPoly.Proofs.Worklist

namespace NestedPoly

variable {α : Type} {dim var : Nat} {monomials : List (Monomial α)} {nest : Nest α}

def Nest.countTasks : Nest α → Nat
  | leaf .. => 1
  | scaled _ _ factored => factored.countTasks + 2
  | joined _ _ factored rest => factored.countTasks + rest.countTasks + 2

theorem countTasks_le {rule : Rule α dim} (form : GreedyForm rule monomials nest) :
    nest.countTasks ≤ taskBudget monomials := by
  induction form with
  | leaf m => exact taskBudget_pos (by simp)
  | @scaled monomials var factored several leading whole inner ih =>
      have budget := taskBudget_sides (rule.occurs leading)
      rw [Nest.countTasks]
      omega
  | @joined monomials var factored rest several leading divided inner outer innerIh outerIh =>
      have budget := taskBudget_sides (rule.occurs leading)
      rw [Nest.countTasks]
      omega

theorem taskBound_eq (terms : Array (Term α)) :
    taskBound terms = taskBudget (residuals terms) := by
  have counted : weight (residuals terms) =
      terms.size + sumOf (terms.toList.map fun term => term.exponents.countP (0 < ·)) := by
    rw [weight, residuals, List.map_map, sumOf_eq_sum, sumOf_eq_sum, ← Array.length_toList]
    induction terms.toList with
    | nil => rfl
    | cons term rest ih =>
        simp only [List.map_cons, List.sum_cons, List.length_cons, ih]
        simp only [Function.comp_apply, Monomial.support, Term.monomial]
        omega
  rw [taskBound, taskBudget, counted, length_residuals]
  omega

def work (dim : Nat) : Nat → Workbench α → Workbench α × Option Fault :=
  runSteps (Workbench.step none dim)

theorem work_leading {branch : Array (Term α)} (same : (residuals branch).Perm monomials)
    (uniform : ∀ m ∈ monomials, m.dim = dim) (several : ∀ m, monomials ≠ [m])
    (leading : (Rule.wrapped α dim).choose monomials = some var) (fuel : Nat)
    (tasks : List (Task α)) (built : Builder α) (splits : List Split) :
    work dim (fuel + 1) ⟨.split branch :: tasks, built, splits⟩ =
      work dim fuel (Workbench.divide ⟨tasks, built, splits⟩ none branch var) := by
  have heavy := (heaviest_eq_choose same uniform).trans leading
  exact Workbench.run_cons fuel (Workbench.Performs.divide (several_terms same several) heavy)

theorem work_join {built after : Builder α} {power : Nat} {hasRest : Bool}
    (joined : built.join var power hasRest = .ok after) (fuel : Nat) (tasks : List (Task α))
    (splits : List Split) :
    work dim (fuel + 1) ⟨.join var power hasRest :: tasks, built, splits⟩ =
      work dim fuel ⟨tasks, after, splits⟩ :=
  Workbench.run_cons fuel (Workbench.Performs.join joined)

theorem work_fault {task : Task α} {tasks : List (Task α)} {built : Builder α}
    {splits : List Split} {after : Workbench α} {fault : Fault} (fuel : Nat)
    (failed : Workbench.perform ⟨tasks, built, splits⟩ none dim task = (after, some fault)) :
    work dim (fuel + 1) ⟨task :: tasks, built, splits⟩ = (after, some fault) :=
  runSteps_failed fuel (congrArg some failed)

theorem work_join_fault {built : Builder α} {power : Nat} {hasRest : Bool} {fault : Fault}
    (refused : built.join var power hasRest = .error fault) (fuel : Nat) (tasks : List (Task α))
    (splits : List Split) :
    work dim (fuel + 1) ⟨.join var power hasRest :: tasks, built, splits⟩ =
      (⟨tasks, built, splits⟩, some fault) :=
  work_fault fuel (congrArg (Workbench.settle _) refused)

theorem work_greedyForm (form : GreedyForm (Rule.wrapped α dim) monomials nest)
    (uniform : ∀ m ∈ monomials, m.dim = dim) (branch : Array (Term α))
    (same : (residuals branch).Perm monomials) (fuel : Nat) (tasks : List (Task α))
    (nodes : Array (Node α)) (waiting : List Nat) (splits : List Split)
    (room : nodes.size + nest.countNodes ≤ nodeLimit) :
    work dim (fuel + nest.countTasks) ⟨.split branch :: tasks, ⟨nodes, waiting⟩, splits⟩ =
      work dim fuel
        ⟨tasks, ⟨nodes ++ (nest.listing nodes.size).toArray,
          (nodes.size + nest.countNodes - 1) :: waiting⟩, nest.splits.reverse ++ splits⟩ := by
  induction form generalizing branch fuel tasks nodes waiting splits with
  | leaf m =>
      obtain ⟨term, single, rfl⟩ := exists_single_term same
      have last : nodes.size < nodeLimit := room
      have placed : (Builder.mk nodes waiting).leaf term =
          .ok ⟨nodes.push (.leaf term.coefficient (nonzeroPowers term.exponents)),
            nodes.size :: waiting⟩ := Builder.place_of_room last _ _
      rw [Nest.countTasks, work, Workbench.run_cons fuel (Workbench.Performs.leaf single placed)]
      simp [Nest.listing, Nest.countNodes, Nest.splits, Term.monomial, Monomial.powers]
  | @scaled monomials var factored several leading whole inner ih =>
      rw [Nest.countNodes] at room
      have nothing := size_eq_length (rest_perm same var)
      rw [whole] at nothing
      have steps : fuel + (factored.countTasks + 2) = fuel + 1 + factored.countTasks + 1 := by
        omega
      have positive := factored.countNodes_pos
      have last : (nodes ++ (factored.listing nodes.size).toArray).size < nodeLimit := by
        rw [Nest.size_append_listing]
        omega
      rw [Nest.countTasks, steps, work_leading same uniform several leading, divide_whole _ nothing,
        ih (dim_of_mem_quotients uniform) _ (factoredBranch_perm same var) _ _ _ _ _ (by omega),
        work_join (Builder.join_alone_of_room last _ _ _ _),
        smallestPower_eq_commonPower same, size_inside same, ← countLeaves_greedyForm inner]
      have root : nodes.size + (factored.countNodes + 1) - 1 =
          nodes.size + factored.countNodes := by
        omega
      simp [Nest.listing, Nest.countNodes, Nest.splits, root]
  | @joined monomials var factored rest several leading divided inner outer innerIh outerIh =>
      rw [Nest.countNodes] at room
      have parted := size_outside_ne_zero same divided
      -- The split is done first, then the factored branch, the rest and the join.
      have steps : fuel + (factored.countTasks + rest.countTasks + 2) =
          fuel + 1 + rest.countTasks + factored.countTasks + 1 := by
        omega
      have offset : (nodes ++ (factored.listing nodes.size).toArray).size =
          nodes.size + factored.countNodes :=
        Nest.size_append_listing nodes factored nodes.size
      have last : (nodes ++ (factored.listing nodes.size).toArray ++ (rest.listing
          (nodes ++ (factored.listing nodes.size).toArray).size).toArray).size < nodeLimit := by
        rw [Nest.size_append_listing, offset]
        omega
      rw [Nest.countTasks, steps, work_leading same uniform several leading, divide_parted _ parted,
        innerIh (dim_of_mem_quotients uniform) _ (factoredBranch_perm same var) _ _ _ _ _ (by omega),
        outerIh (dim_of_mem_lacking uniform) _ (rest_perm same var) _ _ _ _ _ (by omega),
        work_join (Builder.join_rest_of_room last _ _ _ _ _),
        smallestPower_eq_commonPower same, size_inside same, ← countLeaves_greedyForm inner,
        size_eq_length (rest_perm same var), ← countLeaves_greedyForm outer]
      have root : nodes.size + (factored.countNodes + rest.countNodes + 1) - 1 =
          nodes.size + (factored.countNodes + rest.countNodes) := by
        omega
      simp [Nest.listing, Nest.countNodes, Nest.splits, offset, root]

/-- All of the work on terms that have a greedy form for which there is room. -/
theorem buildNodes_of_greedyForm {terms : Array (Term α)}
    (form : GreedyForm (Rule.wrapped α dim) (residuals terms) nest)
    (uniform : ∀ m ∈ residuals terms, m.dim = dim) (room : nest.countNodes ≤ nodeLimit) :
    buildNodes none dim terms =
      (⟨[], ⟨(nest.listing 0).toArray, [nest.countNodes - 1]⟩, nest.splits.reverse⟩, none) := by
  have tasks := countTasks_le form
  obtain ⟨fuel, enough⟩ : ∃ fuel, taskBudget (residuals terms) = fuel + nest.countTasks :=
    ⟨taskBudget (residuals terms) - nest.countTasks, by omega⟩
  rw [buildNodes, taskBound_eq, enough]
  calc work dim (fuel + nest.countTasks) (Workbench.start terms)
    _ = work dim fuel
          ⟨[], ⟨#[] ++ (nest.listing 0).toArray, [0 + nest.countNodes - 1]⟩,
            nest.splits.reverse ++ []⟩ :=
      work_greedyForm form uniform terms (List.Perm.refl _) _ _ _ _ _ (by simpa using room)
    _ = (⟨[], ⟨(nest.listing 0).toArray, [nest.countNodes - 1]⟩, nest.splits.reverse⟩, none) := by
      rw [work, Workbench.run_nil]
      simp

end NestedPoly
