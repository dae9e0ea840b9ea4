import NestedPoly.Factoring

/-!
The work on a list of terms, with each task holding its own branch.

Here no branch can come in the way of another. The work on one buffer of terms is shown to be this
work, branch for branch.
-/

namespace NestedPoly

variable {α : Type}

inductive Task (α : Type) where
  | split (branch : Array (Term α))
  | join (var power : Nat) (hasRest : Bool)
  deriving DecidableEq, Repr

def sides (coding : Option PrimeCoding) (var : Nat) (branch : Array (Term α)) :
    Array (Term α) × Array (Term α) :=
  let (count, gathered) := gather (Term.contains coding var) branch
  (gathered.extract 0 count, gathered.extract count gathered.size)

/-- The tasks, the one to be done next first, what is built so far, and the splits made, the last
first. -/
structure Workbench (α : Type) where
  tasks : List (Task α)
  built : Builder α
  splits : List Split
  deriving DecidableEq, Repr

namespace Workbench

def settle (bench : Workbench α) : Except Fault (Builder α) → Workbench α × Option Fault
  | .ok built => ({ bench with built }, none)
  | .error fault => (bench, some fault)

def divide (bench : Workbench α) (coding : Option PrimeCoding) (branch : Array (Term α))
    (var : Nat) : Workbench α :=
  let (inside, outside) := sides coding var branch
  let power := smallestPower var inside
  let hasRest := !outside.isEmpty
  let next := Task.split (inside.map (Term.divide coding var power)) ::
    ((if hasRest then [.split outside] else []) ++ [.join var power hasRest])
  { bench with
    tasks := next ++ bench.tasks
    splits := ⟨var, power, inside.size, outside.size⟩ :: bench.splits }

def perform (bench : Workbench α) (coding : Option PrimeCoding) (dim : Nat) :
    Task α → Workbench α × Option Fault
  | .split branch =>
    match branch.toList with
    | [term] => bench.settle (bench.built.leaf term)
    | _ =>
      match heaviest (exponentSums dim branch) with
      | none => (bench, some (repeated branch))
      | some var => (bench.divide coding branch var, none)
  | .join var power hasRest => bench.settle (bench.built.join var power hasRest)

def step (coding : Option PrimeCoding) (dim : Nat) (bench : Workbench α) :
    Option (Workbench α × Option Fault) :=
  match bench.tasks with
  | [] => none
  | task :: tasks => some (perform { bench with tasks } coding dim task)

def start (terms : Array (Term α)) : Workbench α := ⟨[.split terms], .empty, []⟩

end Workbench

def buildNodes (coding : Option PrimeCoding) (dim : Nat) (terms : Array (Term α)) :
    Workbench α × Option Fault :=
  runSteps (Workbench.step coding dim) (taskBound terms) (Workbench.start terms)

end NestedPoly
