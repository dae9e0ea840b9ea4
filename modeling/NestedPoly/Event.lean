import NestedPoly.Fault

namespace NestedPoly

structure Split where
  var : Nat
  power : Nat
  factored : Nat
  rest : Nat
  deriving DecidableEq, Repr

inductive Event where
  | split (split : Split)
  | withoutCodes (cause : Fault)
  | factored (dim monomials directCost nestedCost depth : Nat) (encoded : Bool)
  | factoringBatch (count : Nat) (parallel : Bool)
  | evaluatingBatch (count : Nat) (parallel : Bool)
  deriving DecidableEq, Repr

namespace Event

def level : Event → String
  | split _ => "TRACE"
  | _ => "DEBUG"

def message : Event → String
  | split _ => "split"
  | withoutCodes _ => "falling back to exponent scans"
  | factored .. => "factorized polynomial"
  | factoringBatch .. => "factorizing batch"
  | evaluatingBatch .. => "evaluating batch"

end Event

structure Report (τ : Type) where
  events : List Event
  outcome : Except Fault τ

end NestedPoly
