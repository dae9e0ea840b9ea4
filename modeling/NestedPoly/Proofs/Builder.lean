import Mathlib
import NestedPoly.Builder

namespace NestedPoly

namespace Builder

variable {α : Type} {built after : Builder α} {node : Node α} {waiting : List Nat} {fault : Fault}

theorem place_of_room (room : built.nodes.size < nodeLimit) (node : Node α) (waiting : List Nat) :
    built.place node waiting = .ok ⟨built.nodes.push node, built.nodes.size :: waiting⟩ :=
  if_pos room

theorem place_of_full (full : ¬ built.nodes.size < nodeLimit) (node : Node α)
    (waiting : List Nat) : built.place node waiting = .error .treeFull :=
  if_neg full

theorem join_alone_of_room {nodes : Array (Node α)} (room : nodes.size < nodeLimit)
    (var power factored : Nat) (waiting : List Nat) :
    (Builder.mk nodes (factored :: waiting)).join var power false =
      .ok ⟨nodes.push (.factor var power factored none), nodes.size :: waiting⟩ :=
  place_of_room room _ _

theorem join_rest_of_room {nodes : Array (Node α)} (room : nodes.size < nodeLimit)
    (var power factored rest : Nat) (waiting : List Nat) :
    (Builder.mk nodes (rest :: factored :: waiting)).join var power true =
      .ok ⟨nodes.push (.factor var power factored (some rest)), nodes.size :: waiting⟩ :=
  place_of_room room _ _

theorem join_alone_of_full {nodes : Array (Node α)} (full : ¬ nodes.size < nodeLimit)
    (var power factored : Nat) (waiting : List Nat) :
    (Builder.mk nodes (factored :: waiting)).join var power false = .error .treeFull :=
  place_of_full full _ _

theorem join_rest_of_full {nodes : Array (Node α)} (full : ¬ nodes.size < nodeLimit)
    (var power factored rest : Nat) (waiting : List Nat) :
    (Builder.mk nodes (rest :: factored :: waiting)).join var power true = .error .treeFull :=
  place_of_full full _ _

theorem length_waiting_of_place (placed : built.place node waiting = .ok after) :
    after.waiting.length = waiting.length + 1 := by
  unfold place at placed
  split at placed
  · cases placed
    rfl
  · cases placed

theorem eq_treeFull_of_place (refused : built.place node waiting = .error fault) :
    fault = .treeFull := by
  unfold place at refused
  split at refused
  · cases refused
  · cases refused
    rfl

def branches (hasRest : Bool) : Nat := if hasRest then 2 else 1

/-- A join adds a node over its branches, or misses a branch. -/
theorem join_cases (built : Builder α) (var power : Nat) (hasRest : Bool) :
    (branches hasRest ≤ built.waiting.length ∧ ∃ node, built.join var power hasRest =
      built.place node (built.waiting.drop (branches hasRest))) ∨
    (built.waiting.length < branches hasRest ∧ ∃ length index,
      built.join var power hasRest = .error (.pastEnd length index)) := by
  obtain ⟨nodes, waiting⟩ := built
  cases hasRest with
  | true =>
      rcases waiting with _ | ⟨rest, _ | ⟨factored, waiting⟩⟩
      · exact .inr ⟨by simp [branches], _, _, rfl⟩
      · exact .inr ⟨by simp [branches], _, _, rfl⟩
      · exact .inl ⟨by simp [branches], _, rfl⟩
  | false =>
      rcases waiting with _ | ⟨factored, waiting⟩
      · exact .inr ⟨by simp [branches], _, _, rfl⟩
      · exact .inl ⟨by simp [branches], _, rfl⟩

theorem length_waiting_of_join {var power : Nat} {hasRest : Bool}
    (joined : built.join var power hasRest = .ok after) :
    after.waiting.length + branches hasRest = built.waiting.length + 1 := by
  rcases built.join_cases var power hasRest with ⟨enough, node, equal⟩ | ⟨-, length, index, equal⟩
  · rw [equal] at joined
    rw [length_waiting_of_place joined, List.length_drop]
    omega
  · cases equal.symm.trans joined

theorem eq_treeFull_of_join {var power : Nat} {hasRest : Bool}
    (enough : branches hasRest ≤ built.waiting.length)
    (refused : built.join var power hasRest = .error fault) : fault = .treeFull := by
  rcases built.join_cases var power hasRest with ⟨-, node, equal⟩ | ⟨missing, -⟩
  · exact eq_treeFull_of_place (equal.symm.trans refused)
  · omega

theorem finish_of_pos (present : 0 < built.nodes.size) : built.finish = some ⟨built.nodes⟩ := by
  rw [finish, if_neg]
  simp only [Array.isEmpty, decide_eq_true_eq]
  omega

end Builder

end NestedPoly
