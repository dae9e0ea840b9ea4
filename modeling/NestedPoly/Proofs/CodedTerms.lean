import Mathlib
import NestedPoly.Proofs.Branch
import NestedPoly.Proofs.PrimeCoding
import NestedPoly.Proofs.Worklist

/-! Work with codes does what work without codes does.

As long as the code of each term is the code of its exponents, both ways to tell whether a term has
a variable agree, and the quotient of the code is the code of what is left. So each task does the
same whether the codes are there or are left out, and the agreement is kept. -/

namespace NestedPoly

variable {α : Type} {dim var : Nat} {coding : PrimeCoding}

namespace Term

def bare (term : Term α) : Term α := { term with code := none }

def CodedBy (coding : PrimeCoding) (term : Term α) : Prop :=
  ∃ code, term.code = some code ∧ coding.codeOf term.exponents = .ok code

@[simp] theorem bare_divide (other : Option PrimeCoding) (power : Nat) (term : Term α) :
    (term.divide other var power).bare = term.bare.divide none var power := rfl

@[simp] theorem exponent_bare (term : Term α) : term.bare.exponent var = term.exponent var := rfl

theorem contains_of_codedBy (ascends : AscendingPrimes coding.primes) {term : Term α}
    (coded : term.CodedBy coding) (var : Nat) :
    Term.contains (some coding) var term = decide (0 < term.exponent var) := by
  obtain ⟨code, stored, encoded⟩ := coded
  simp only [contains, stored]
  exact PrimeCoding.occurs_eq ascends encoded var

theorem lt_dim_of_codedBy (ascends : AscendingPrimes coding.primes) {term : Term α}
    (coded : term.CodedBy coding) (present : 0 < term.exponent var) : var < coding.dim := by
  obtain ⟨code, -, encoded⟩ := coded
  have lengths := ((PrimeCoding.codeOf_eq_ok_iff ascends).mp encoded).1
  by_contra outside
  rw [exponent, List.getD_eq_default _ _ (by omega)] at present
  omega

theorem codedBy_divide (ascends : AscendingPrimes coding.primes) {term : Term α} {power : Nat}
    (coded : term.CodedBy coding) (present : 0 < term.exponent var)
    (enough : power ≤ term.exponent var) :
    (term.divide (some coding) var power).CodedBy coding := by
  have inside := lt_dim_of_codedBy ascends coded present
  obtain ⟨code, stored, encoded⟩ := coded
  obtain ⟨left, quotient, encodedLeft⟩ :=
    PrimeCoding.quotient?_eq_some ascends encoded inside enough
  refine ⟨left, ?_, encodedLeft⟩
  simp [divide, stored, quotient]

end Term

def Task.bare : Task α → Task α
  | split branch => split (branch.map Term.bare)
  | join var power hasRest => join var power hasRest

namespace Workbench

def bare (bench : Workbench α) : Workbench α := { bench with tasks := bench.tasks.map Task.bare }

/-- All terms that are still to be split have the codes of their exponents. -/
def Coded (coding : PrimeCoding) (bench : Workbench α) : Prop :=
  ∀ branch, Task.split branch ∈ bench.tasks → ∀ term ∈ branch, term.CodedBy coding

end Workbench

theorem exponentSums_bare (dim : Nat) (branch : Array (Term α)) :
    exponentSums dim (branch.map Term.bare) = exponentSums dim branch := by
  rw [exponentSums, Array.foldl_map]
  rfl

theorem repeated_bare (branch : Array (Term α)) :
    repeated (branch.map Term.bare) = repeated branch := by
  simp [repeated, Function.comp_def, Term.bare]

theorem smallestPower_bare (var : Nat) (inside : Array (Term α)) :
    smallestPower var (inside.map Term.bare) = smallestPower var inside := by
  simp [smallestPower, Function.comp_def]

theorem sides_bare (ascends : AscendingPrimes coding.primes) {branch : Array (Term α)}
    (coded : ∀ term ∈ branch, term.CodedBy coding) (var : Nat) :
    sides none var (branch.map Term.bare) =
      ((sides (some coding) var branch).1.map Term.bare,
        (sides (some coding) var branch).2.map Term.bare) := by
  have agree : ∀ term ∈ branch,
      (Term.contains none var ∘ Term.bare) term = Term.contains (some coding) var term := by
    intro term member
    rw [Term.contains_of_codedBy ascends (coded term member)]
    rfl
  have gathered := gatherFrom_map (Term.contains none var) Term.bare branch.size branch 0 0
  rw [gatherFrom_congr branch.size branch 0 0 agree] at gathered
  simp only [sides, gather, gathered, Array.map_extract, Array.size_map]

theorem mem_inside (ascends : AscendingPrimes coding.primes) {branch : Array (Term α)}
    (coded : ∀ term ∈ branch, term.CodedBy coding) {term : Term α}
    (member : term ∈ (sides (some coding) var branch).1) :
    term ∈ branch ∧ 0 < term.exponent var := by
  rw [← Array.mem_toList_iff, toList_inside, List.mem_filter, Array.mem_toList_iff] at member
  obtain ⟨listed, present⟩ := member
  rw [Term.contains_of_codedBy ascends (coded term listed)] at present
  exact ⟨listed, by simpa using present⟩

theorem mem_outside {other : Option PrimeCoding} {branch : Array (Term α)} {term : Term α}
    (member : term ∈ (sides other var branch).2) : term ∈ branch := by
  rw [← Array.mem_toList_iff, (toList_outside_perm other var branch).mem_iff] at member
  exact Array.mem_toList_iff.mp (List.mem_of_mem_filter member)

theorem codedBy_of_mem_factoredBranch (ascends : AscendingPrimes coding.primes)
    {branch : Array (Term α)} (coded : ∀ term ∈ branch, term.CodedBy coding) {term : Term α}
    (member : term ∈ factoredBranch (some coding) var branch) : term.CodedBy coding := by
  rw [factoredBranch] at member
  obtain ⟨original, inside, rfl⟩ := Array.mem_map.mp member
  obtain ⟨listed, present⟩ := mem_inside ascends coded inside
  exact Term.codedBy_divide ascends (coded original listed) present (smallestPower_le inside)

theorem factoredBranch_bare (ascends : AscendingPrimes coding.primes) {branch : Array (Term α)}
    (coded : ∀ term ∈ branch, term.CodedBy coding) (var : Nat) :
    factoredBranch none var (branch.map Term.bare) =
      (factoredBranch (some coding) var branch).map Term.bare := by
  rw [factoredBranch, factoredBranch, sides_bare ascends coded, smallestPower_bare]
  simp [Function.comp_def]

namespace Workbench

theorem divide_bare (ascends : AscendingPrimes coding.primes) (bench : Workbench α)
    {branch : Array (Term α)} (coded : ∀ term ∈ branch, term.CodedBy coding) (var : Nat) :
    bench.bare.divide none (branch.map Term.bare) var =
      (bench.divide (some coding) branch var).bare := by
  have bareSides := sides_bare ascends coded var
  have bareFactored := factoredBranch_bare ascends coded var
  by_cases whole : (sides (some coding) var branch).2.size = 0
  · rw [divide_whole _ whole, divide_whole _ (by simp [bareSides, whole])]
    simp [bare, Task.bare, bareSides, bareFactored, smallestPower_bare]
  · rw [divide_parted _ whole, divide_parted _ (by simp [bareSides, whole])]
    simp [bare, Task.bare, bareSides, bareFactored, smallestPower_bare]

theorem settle_bare (bench : Workbench α) (result : Except Fault (Builder α)) :
    bench.bare.settle result = Prod.map bare id (bench.settle result) := by
  cases result <;> rfl

/-- A task does the same with its codes and without. -/
theorem perform_bare (ascends : AscendingPrimes coding.primes) (dim : Nat) (bench : Workbench α)
    {task : Task α}
    (coded : ∀ branch, task = .split branch → ∀ term ∈ branch, term.CodedBy coding) :
    bench.bare.perform none dim task.bare =
      Prod.map bare id (bench.perform (some coding) dim task) := by
  cases task with
  | split branch =>
      by_cases single : ∃ term, branch.toList = [term]
      · obtain ⟨term, single⟩ := single
        have bareSingle : (branch.map Term.bare).toList = [term.bare] := by simp [single]
        rw [Task.bare, perform_single bench single, perform_single _ bareSingle]
        exact bench.settle_bare _
      · have several : ∀ term, branch.toList ≠ [term] := not_exists.mp single
        have bareSeveral : ∀ term, (branch.map Term.bare).toList ≠ [term] := by
          intro term only
          rw [Array.toList_map, List.map_eq_singleton_iff] at only
          obtain ⟨original, only, -⟩ := only
          exact several original only
        have sums := exponentSums_bare dim branch
        cases heavy : heaviest (exponentSums dim branch) with
        | none =>
            rw [Task.bare, perform_stuck bench several heavy,
              perform_stuck _ bareSeveral (sums ▸ heavy), repeated_bare]
            rfl
        | some var =>
            rw [Task.bare, perform_divide bench several heavy,
              perform_divide _ bareSeveral (sums ▸ heavy),
              divide_bare ascends bench (coded branch rfl)]
            rfl
  | join var power hasRest => exact bench.settle_bare _

theorem coded_of_performs (ascends : AscendingPrimes coding.primes) {bench after : Workbench α}
    {task : Task α} {tasks : List (Task α)} (first : bench.tasks = task :: tasks)
    (done : Performs (some coding) dim { bench with tasks } task after)
    (coded : Coded coding bench) : Coded coding after := by
  have later : ∀ branch, Task.split branch ∈ tasks → ∀ term ∈ branch, term.CodedBy coding := by
    intro branch member
    exact coded branch (first ▸ List.mem_cons_of_mem task member)
  cases done with
  | leaf single placed => exact later
  | @divide branch var several heavy =>
      have current := coded branch (first ▸ List.mem_cons_self)
      intro other member
      by_cases whole : (sides (some coding) var branch).2.size = 0
      · rw [divide_whole _ whole] at member
        simp only [List.mem_cons, Task.split.injEq, reduceCtorEq, false_or] at member
        rcases member with rfl | member
        · exact fun term => codedBy_of_mem_factoredBranch ascends current
        · exact later other member
      · rw [divide_parted _ whole] at member
        simp only [List.mem_cons, Task.split.injEq, reduceCtorEq, false_or] at member
        rcases member with rfl | rfl | member
        · exact fun term => codedBy_of_mem_factoredBranch ascends current
        · exact fun term listed => current term (mem_outside listed)
        · exact later other member
  | join joined => exact later

theorem coded_of_step (ascends : AscendingPrimes coding.primes) {bench after : Workbench α}
    (taken : bench.step (some coding) dim = some (after, none)) (coded : Coded coding bench) :
    Coded coding after := by
  obtain ⟨task, tasks, first, done⟩ := performs_of_step taken
  exact coded_of_performs ascends first done coded

theorem step_bare (ascends : AscendingPrimes coding.primes) (dim : Nat) (bench : Workbench α)
    (coded : Coded coding bench) :
    bench.bare.step none dim = (bench.step (some coding) dim).map (Prod.map bare id) := by
  obtain ⟨tasks, built, splits⟩ := bench
  cases tasks with
  | nil => rfl
  | cons task tasks =>
      have first : ∀ branch, task = .split branch → ∀ term ∈ branch, term.CodedBy coding := by
        intro branch equal
        exact coded branch (by simp [equal])
      exact congrArg some (perform_bare ascends dim ⟨tasks, built, splits⟩ first)

end Workbench

end NestedPoly
