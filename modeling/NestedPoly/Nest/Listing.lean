import NestedPoly.Nest

namespace NestedPoly

variable {α : Type}

/-- The nodes of the factored subtree, then those of the rest, then the root, when `offset` nodes lie
before them. -/
def Nest.listing (offset : Nat) : Nest α → List (Node α)
  | leaf coefficient powers => [.leaf coefficient powers]
  | scaled var power factored =>
    factored.listing offset ++ [.factor var power (offset + factored.countNodes - 1) none]
  | joined var power factored rest =>
    factored.listing offset ++ rest.listing (offset + factored.countNodes) ++
      [.factor var power (offset + factored.countNodes - 1)
        (some (offset + factored.countNodes + rest.countNodes - 1))]

def Nest.arena (nest : Nest α) : Arena α := ⟨(nest.listing 0).toArray⟩

/-- The tree under the node at `index`. There is none if a child does not lie before its parent. -/
def Arena.nestAt? (nodes : Array (Node α)) (index : Nat) : Option (Nest α) :=
  match nodes[index]? with
  | none => none
  | some (.leaf coefficient powers) => some (.leaf coefficient powers)
  | some (.factor var power factored none) =>
    if _ : factored < index then do
      return .scaled var power (← nestAt? nodes factored)
    else none
  | some (.factor var power factored (some rest)) =>
    if _ : factored < index ∧ rest < index then do
      return .joined var power (← nestAt? nodes factored) (← nestAt? nodes rest)
    else none
termination_by index

def Arena.nest? (arena : Arena α) : Option (Nest α) := Arena.nestAt? arena.nodes arena.root

end NestedPoly
