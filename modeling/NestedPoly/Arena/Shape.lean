import NestedPoly.Arena

/-!
Which lists of nodes are one tree.

One pass over the nodes gives each child to its parent. The list is refused if a child does not lie
before its parent, is given away twice, or, the last node apart, not at all. There have to be nodes,
but no more of them than 32 bits can number.
-/

namespace NestedPoly.Arena

variable {α : Type}

def takeChild (parent : Nat) (taken : Array Bool) (child : Nat) : Except Fault (Array Bool) :=
  if parent ≤ child then .error (.brokenTree parent .childNotBefore)
  else if taken.getD child false then .error (.brokenTree child .twoParents)
  else .ok (taken.setIfInBounds child true)

def takeChildren (nodes : Array (Node α)) : Except Fault (Array Bool) :=
  nodes.toList.zipIdx.foldlM (fun taken (node, parent) =>
    node.children.foldlM (takeChild parent) taken) (Array.replicate nodes.size false)

def ofNodes (nodes : Array (Node α)) : Except Fault (Arena α) :=
  if nodes.isEmpty then .error (.brokenTree 0 .noNodes)
  else if UInt32.size ≤ nodes.size then .error (.brokenTree (nodes.size - 1) .tooManyNodes)
  else do
    let taken ← takeChildren nodes
    match taken.toList.dropLast.idxOf? false with
    | some orphan => .error (.brokenTree orphan .unreachable)
    | none => return ⟨nodes⟩

end NestedPoly.Arena
