import Mathlib
import NestedPoly.Workbench
import NestedPoly.Proofs.Builder
import NestedPoly.Proofs.Steps

/-! What a task can do to the bench, and what stays true while tasks are done.

`Performs` has one constructor for each thing that happens to a task. An invariant of the work is
shown for these, and then holds of every bench that the work reaches. The first of them is that a join
always finds its branches waiting. -/

namespace NestedPoly

variable {α : Type} {coding : Option PrimeCoding} {dim : Nat}

namespace Workbench

/-- What doing a task without a fault makes of the bench. -/
inductive Performs (coding : Option PrimeCoding) (dim : Nat) (bench : Workbench α) :
    Task α → Workbench α → Prop where
  | leaf {branch : Array (Term α)} {term : Term α} {built : Builder α}
      (single : branch.toList = [term]) (placed : bench.built.leaf term = .ok built) :
      Performs coding dim bench (.split branch) { bench with built }
  | divide {branch : Array (Term α)} {var : Nat} (several : ∀ term, branch.toList ≠ [term])
      (heavy : heaviest (exponentSums dim branch) = some var) :
      Performs coding dim bench (.split branch) (bench.divide coding branch var)
  | join {var power : Nat} {hasRest : Bool} {built : Builder α}
      (joined : bench.built.join var power hasRest = .ok built) :
      Performs coding dim bench (.join var power hasRest) { bench with built }

theorem perform_single (bench : Workbench α) {branch : Array (Term α)} {term : Term α}
    (single : branch.toList = [term]) :
    bench.perform coding dim (.split branch) = bench.settle (bench.built.leaf term) := by
  simp only [perform, single]

theorem perform_stuck (bench : Workbench α) {branch : Array (Term α)}
    (several : ∀ term, branch.toList ≠ [term])
    (stuck : heaviest (exponentSums dim branch) = none) :
    bench.perform coding dim (.split branch) = (bench, some (repeated branch)) := by
  rcases entries : branch.toList with _ | ⟨term, _ | ⟨next, others⟩⟩
  · simp only [perform, entries, stuck]
  · exact absurd entries (several term)
  · simp only [perform, entries, stuck]

theorem perform_divide (bench : Workbench α) {branch : Array (Term α)} {var : Nat}
    (several : ∀ term, branch.toList ≠ [term])
    (heavy : heaviest (exponentSums dim branch) = some var) :
    bench.perform coding dim (.split branch) = (bench.divide coding branch var, none) := by
  rcases entries : branch.toList with _ | ⟨term, _ | ⟨next, others⟩⟩
  · simp only [perform, entries, heavy]
  · exact absurd entries (several term)
  · simp only [perform, entries, heavy]

theorem settle_eq_iff {bench after : Workbench α} {result : Except Fault (Builder α)} :
    bench.settle result = (after, none) ↔ ∃ built, result = .ok built ∧ after = { bench with built } := by
  cases result with
  | ok built => simp [settle, eq_comm]
  | error fault => simp [settle]

theorem perform_eq_of_performs {bench after : Workbench α} {task : Task α}
    (done : Performs coding dim bench task after) :
    bench.perform coding dim task = (after, none) := by
  cases done with
  | leaf single placed => rw [perform_single bench single, placed, settle]
  | divide several heavy => exact perform_divide bench several heavy
  | join joined => rw [perform, joined, settle]

theorem performs_of_perform_eq {bench after : Workbench α} {task : Task α}
    (done : bench.perform coding dim task = (after, none)) :
    Performs coding dim bench task after := by
  cases task with
  | split branch =>
      by_cases single : ∃ term, branch.toList = [term]
      · obtain ⟨term, single⟩ := single
        rw [perform_single bench single] at done
        obtain ⟨built, placed, rfl⟩ := settle_eq_iff.mp done
        exact Performs.leaf single placed
      · have several : ∀ term, branch.toList ≠ [term] := not_exists.mp single
        cases heavy : heaviest (exponentSums dim branch) with
        | none =>
            rw [perform_stuck bench several heavy] at done
            cases done
        | some var =>
            rw [perform_divide bench several heavy] at done
            cases done
            exact Performs.divide several heavy
  | join var power hasRest =>
      obtain ⟨built, joined, rfl⟩ := settle_eq_iff.mp done
      exact Performs.join joined

def Reaches (coding : Option PrimeCoding) (dim : Nat) : Workbench α → Workbench α → Prop :=
  Passes (step coding dim)

theorem performs_of_step {bench after : Workbench α}
    (taken : bench.step coding dim = some (after, none)) :
    ∃ task tasks, bench.tasks = task :: tasks ∧
      Performs coding dim { bench with tasks } task after := by
  obtain ⟨tasks, built, splits⟩ := bench
  cases tasks with
  | nil => cases taken
  | cons task tasks =>
      exact ⟨task, tasks, rfl, performs_of_perform_eq (Option.some.inj taken)⟩

theorem invariant_of_reaches (holds : Workbench α → Prop) {start bench : Workbench α}
    (initial : holds start)
    (kept : ∀ {bench after : Workbench α} {task : Task α} {tasks : List (Task α)},
      bench.tasks = task :: tasks → Performs coding dim { bench with tasks } task after →
        holds bench → holds after)
    (reached : Reaches coding dim start bench) : holds bench := by
  refine invariant_of_passes holds initial ?_ reached
  intro bench after taken here
  obtain ⟨task, tasks, first, done⟩ := performs_of_step taken
  exact kept first done here

theorem run_cons {task : Task α} {tasks : List (Task α)} {built : Builder α} {splits : List Split}
    {after : Workbench α} (fuel : Nat)
    (done : Performs coding dim ⟨tasks, built, splits⟩ task after) :
    runSteps (step coding dim) (fuel + 1) ⟨task :: tasks, built, splits⟩ =
      runSteps (step coding dim) fuel after :=
  runSteps_succ fuel (congrArg some (perform_eq_of_performs done))

theorem run_nil (fuel : Nat) (built : Builder α) (splits : List Split) :
    runSteps (step coding dim) fuel ⟨[], built, splits⟩ = (⟨[], built, splits⟩, none) :=
  runSteps_idle fuel rfl

/-- With `count` nodes waiting, each of the tasks finds as many as it takes, and one is left at the
end. -/
def Supplied : List (Task α) → Nat → Prop
  | [], count => count = 1
  | .split _ :: tasks, count => Supplied tasks (count + 1)
  | .join _ _ hasRest :: tasks, count =>
    Builder.branches hasRest ≤ count ∧ Supplied tasks (count + 1 - Builder.branches hasRest)

theorem supplied_of_performs {bench after : Workbench α} {task : Task α} {tasks : List (Task α)}
    (first : bench.tasks = task :: tasks)
    (done : Performs coding dim { bench with tasks } task after)
    (supplied : Supplied bench.tasks bench.built.waiting.length) :
    Supplied after.tasks after.built.waiting.length := by
  rw [first] at supplied
  cases done with
  | leaf single placed =>
      rw [Builder.length_waiting_of_place placed]
      exact supplied
  | @divide branch var several heavy =>
      by_cases whole : (sides coding var branch).2.isEmpty
      · simp only [divide, whole]
        simpa [Supplied, Builder.branches] using supplied
      · simp only [divide, whole]
        simpa [Supplied, Builder.branches] using supplied
  | join joined =>
      have counts := Builder.length_waiting_of_join joined
      rw [Supplied] at supplied
      convert supplied.2 using 1
      exact Nat.eq_sub_of_add_eq counts

theorem supplied_of_reaches {terms : Array (Term α)} {bench : Workbench α}
    (reached : Reaches coding dim (start terms) bench) :
    Supplied bench.tasks bench.built.waiting.length := by
  refine invariant_of_reaches (fun bench => Supplied bench.tasks bench.built.waiting.length)
    ?_ supplied_of_performs reached
  simp [start, Supplied, Builder.empty]

theorem branches_le_of_reaches {terms : Array (Term α)} {bench : Workbench α}
    (reached : Reaches coding dim (start terms) bench) {var power : Nat} {hasRest : Bool}
    {tasks : List (Task α)} (first : bench.tasks = .join var power hasRest :: tasks) :
    Builder.branches hasRest ≤ bench.built.waiting.length := by
  have supplied := supplied_of_reaches reached
  rw [first] at supplied
  exact supplied.1

end Workbench

end NestedPoly
