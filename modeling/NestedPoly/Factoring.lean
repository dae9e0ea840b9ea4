import NestedPoly.Builder
import NestedPoly.Event
import NestedPoly.Gather
import NestedPoly.NestedForm
import NestedPoly.Sparse
import NestedPoly.Steps

/-!
From a list of monomials to a nested form, greedily.

A branch is a set of terms. A single term becomes a leaf. From several, the variable with the
largest sum of exponents is taken out, the first of equals, with its smallest power that occurs: the
terms that have the variable are divided by the power and become one branch, the others the second.
If no variable is left, the terms of the branch have equal exponents, and the polynomial is refused.

Pending branches wait on a list of tasks, so that deep polynomials need no deep recursion. All terms
lie in one buffer. A branch is a range of it, and is divided in place.
-/

namespace NestedPoly

structure FactoringOptions where
  checked : Bool
  useCodes : Bool
  deriving DecidableEq, Repr

def FactoringOptions.standard : FactoringOptions := ⟨true, true⟩

inductive RangeTask where
  /-- Bring the terms from position `first` up to `last` into nested form. -/
  | split (first last : Nat)
  | join (var power : Nat) (hasRest : Bool)
  deriving DecidableEq, Repr

/-- The terms, the tasks, the one to be done next first, what is built so far, and the splits made,
the last first. -/
structure BufferBench (α : Type) where
  buffer : Array (Term α)
  tasks : List RangeTask
  built : Builder α
  splits : List Split
  deriving DecidableEq, Repr

namespace BufferBench

variable {α : Type}

/-- Goes on with what is built now. A fault leaves the bench as it was. -/
def settle (bench : BufferBench α) : Except Fault (Builder α) → BufferBench α × Option Fault
  | .ok built => ({ bench with built }, none)
  | .error fault => (bench, some fault)

/-- Divides the terms of a range by a power of `var`. The smallest power that occurs is taken. -/
def divide (bench : BufferBench α) (coding : Option PrimeCoding) (first last var : Nat) :
    BufferBench α :=
  let (mid, gathered) := gatherFrom (Term.contains coding var) last bench.buffer first first
  let power := smallestPower var (gathered.extract first mid)
  let hasRest := decide (mid < last)
  let next := .split first mid ::
    ((if hasRest then [.split mid last] else []) ++ [.join var power hasRest])
  { bench with
    buffer := changeFrom (Term.divide coding var power) mid gathered first
    tasks := next ++ bench.tasks
    splits := ⟨var, power, mid - first, last - mid⟩ :: bench.splits }

def perform (bench : BufferBench α) (coding : Option PrimeCoding) (dim : Nat) :
    RangeTask → BufferBench α × Option Fault
  | .split first last =>
    let branch := bench.buffer.extract first last
    match branch.toList with
    | [term] => bench.settle (bench.built.leaf term)
    | _ =>
      match heaviest (exponentSums dim branch) with
      | none => (bench, some (repeated branch))
      | some var => (bench.divide coding first last var, none)
  | .join var power hasRest => bench.settle (bench.built.join var power hasRest)

def step (coding : Option PrimeCoding) (dim : Nat) (bench : BufferBench α) :
    Option (BufferBench α × Option Fault) :=
  match bench.tasks with
  | [] => none
  | task :: tasks => some (perform { bench with tasks } coding dim task)

def start (terms : Array (Term α)) : BufferBench α := ⟨terms, [.split 0 terms.size], .empty, []⟩

end BufferBench

def build {α : Type} (coding : Option PrimeCoding) (dim : Nat) (terms : Array (Term α)) :
    BufferBench α × Option Fault :=
  runSteps (BufferBench.step coding dim) (taskBound terms) (BufferBench.start terms)

def plainTerms {α : Type} (monomials : List (Monomial α)) : List (Term α) :=
  monomials.zipIdx.map fun (m, position) => ⟨m.coefficient, m.exponents, none, position⟩

def codedTerms {α : Type} (coding : PrimeCoding) (monomials : List (Monomial α)) :
    Except Fault (List (Term α)) :=
  monomials.zipIdx.mapM fun (m, position) => do
    return ⟨m.coefficient, m.exponents, some (← coding.codeOf m.exponents), position⟩

/-- What factoring starts from: a coding if one is in use, the terms, and what there is to report
about it. -/
def prepare {α : Type} (options : FactoringOptions) (dim : Nat) (monomials : List (Monomial α)) :
    Option PrimeCoding × List (Term α) × List Event :=
  if options.useCodes then
    let coding := PrimeCoding.ofDim dim
    match codedTerms coding monomials with
    | .ok terms => (some coding, terms, [])
    | .error cause => (none, plainTerms monomials, [.withoutCodes cause])
  else (none, plainTerms monomials, [])

def factorMonomials {α : Type} (options : FactoringOptions) (dim : Nat)
    (monomials : List (Monomial α)) : Report (NestedForm α) :=
  if monomials.isEmpty then ⟨[], .error .noMonomials⟩
  else
    match checkDimensions dim monomials with
    | .error fault => ⟨[], .error fault⟩
    | .ok () =>
      let (coding, terms, notes) := prepare options dim monomials
      let (bench, fault?) := build coding dim terms.toArray
      let events := notes ++ bench.splits.reverse.map .split
      match fault?, bench.built.finish with
      | some fault, _ => ⟨events, .error fault⟩
      | none, none => ⟨events, .error .noMonomials⟩
      | none, some arena =>
        let form := NestedForm.ofArena arena dim options.checked
        let directCost := Cost.termByTerm (monomials.map Monomial.degree)
        ⟨events ++ [.factored dim monomials.length directCost.total form.cost.total
            form.arena.depth coding.isSome], .ok form⟩

def SparsePoly.factor {α : Type} (poly : SparsePoly α) (options : FactoringOptions) :
    Report (NestedForm α) :=
  factorMonomials options poly.dim poly.monomials

def SparsePoly.nested {α : Type} (poly : SparsePoly α) : Report (NestedForm α) :=
  poly.factor { FactoringOptions.standard with checked := poly.checked }

def NestedForm.ofRows {α : Type} (coefficients : List α) (rows : List (List Int))
    (options : BuildOptions) : Report (NestedForm α) :=
  match SparsePoly.ofRows coefficients rows options with
  | .error fault => ⟨[], .error fault⟩
  | .ok poly => poly.factor { FactoringOptions.standard with checked := options.checked }

end NestedPoly
