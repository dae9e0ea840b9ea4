import Mathlib
import NestedPoly.Nest.Listing

namespace NestedPoly

variable {α : Type}

namespace Nest

theorem countNodes_pos (nest : Nest α) : 0 < nest.countNodes := by
  cases nest <;> simp [countNodes]

@[simp] theorem length_listing (nest : Nest α) (offset : Nat) :
    (nest.listing offset).length = nest.countNodes := by
  induction nest generalizing offset with
  | leaf => rfl
  | scaled var power factored ih => simp [listing, countNodes, ih]
  | joined var power factored rest innerIh outerIh =>
      simp [listing, countNodes, innerIh, outerIh, Nat.add_assoc]

theorem size_append_listing (nodes : Array (Node α)) (nest : Nest α) (offset : Nat) :
    (nodes ++ (nest.listing offset).toArray).size = nodes.size + nest.countNodes := by
  simp

end Nest

namespace Arena

theorem nestAt?_of_leaf {nodes : Array (Node α)} {index : Nat} {coefficient : α}
    {powers : List (Nat × Nat)} (place : nodes[index]? = some (.leaf coefficient powers)) :
    nestAt? nodes index = some (.leaf coefficient powers) := by
  rw [nestAt?]
  split <;> simp_all

theorem nestAt?_of_scaled {nodes : Array (Node α)} {index var power factored : Nat}
    (place : nodes[index]? = some (.factor var power factored none)) (below : factored < index) :
    nestAt? nodes index = (nestAt? nodes factored).map (.scaled var power) := by
  rw [nestAt?]
  split <;> simp_all
  cases nestAt? nodes factored <;> rfl

theorem nestAt?_of_joined {nodes : Array (Node α)} {index var power factored rest : Nat}
    (place : nodes[index]? = some (.factor var power factored (some rest)))
    (below : factored < index) (restBelow : rest < index) :
    nestAt? nodes index = (nestAt? nodes factored).bind fun inner =>
      (nestAt? nodes rest).map (.joined var power inner) := by
  rw [nestAt?]
  split <;> simp_all
  cases nestAt? nodes factored with
  | none => rfl
  | some inner => cases nestAt? nodes rest <;> rfl

theorem nestAt?_listing (nest : Nest α) {nodes : Array (Node α)} (before after : List (Node α))
    (layout : nodes.toList = before ++ nest.listing before.length ++ after) :
    nestAt? nodes (before.length + nest.countNodes - 1) = some nest := by
  induction nest generalizing before after with
  | leaf coefficient powers =>
      apply nestAt?_of_leaf
      rw [← Array.getElem?_toList, layout]
      simp [Nest.listing, Nest.countNodes]
  | scaled var power factored ih =>
      have positive := factored.countNodes_pos
      have inner := ih before (.factor var power (before.length + factored.countNodes - 1) none ::
        after) (by simp [layout, Nest.listing])
      have place : nodes[before.length + factored.countNodes]? =
          some (.factor var power (before.length + factored.countNodes - 1) none) := by
        rw [← Array.getElem?_toList, layout]
        simp [Nest.listing]
      have last : before.length + (factored.countNodes + 1) - 1 =
          before.length + factored.countNodes := by omega
      rw [Nest.countNodes, last, nestAt?_of_scaled place (by omega), inner]
      rfl
  | joined var power factored rest innerIh outerIh =>
      have positive := factored.countNodes_pos
      have restPositive := rest.countNodes_pos
      have inner := innerIh before _ (by
        rw [layout, Nest.listing]
        simp only [List.append_assoc]
        rfl)
      -- The rest stands behind the factored subtree, which takes the place of what lies before.
      have outer := outerIh (before ++ factored.listing before.length) _ (by
        rw [layout, Nest.listing]
        simp only [List.append_assoc, List.length_append, Nest.length_listing]
        rfl)
      rw [List.length_append, Nest.length_listing] at outer
      have place : nodes[before.length + factored.countNodes + rest.countNodes]? =
          some (.factor var power (before.length + factored.countNodes - 1)
            (some (before.length + factored.countNodes + rest.countNodes - 1))) := by
        rw [← Array.getElem?_toList, layout]
        simp [Nest.listing, Nat.add_assoc]
      have last : before.length + (factored.countNodes + rest.countNodes + 1) - 1 =
          before.length + factored.countNodes + rest.countNodes := by omega
      rw [Nest.countNodes, last, nestAt?_of_joined place (by omega) (by omega), inner, outer]
      rfl

theorem root_lt_of_nest? {arena : Arena α} {nest : Nest α} (tree : arena.nest? = some nest) :
    arena.root < arena.nodes.size := by
  by_contra beyond
  have missing : arena.nodes[arena.root]? = none := Array.getElem?_eq_none (Nat.not_lt.mp beyond)
  rw [nest?, nestAt?] at tree
  split at tree <;> simp_all

end Arena

theorem Nest.nest?_arena (nest : Nest α) : nest.arena.nest? = some nest := by
  have found := @Arena.nestAt?_listing α nest nest.arena.nodes [] [] (by simp [arena])
  simpa [Arena.nest?, Arena.root, arena] using found

end NestedPoly
