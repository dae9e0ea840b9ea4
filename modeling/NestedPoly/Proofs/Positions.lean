import Mathlib
import NestedPoly.Proofs.Shape

/-! The positions of a tree in an arena.

Walked through from the root, the nodes of one tree come by each exactly once. So what a pass over the
array adds up is what recursion over the tree adds up. -/

namespace NestedPoly

variable {α : Type} {nodes : Array (Node α)}

namespace Arena

/-- The tree under a position, with the positions of its nodes from the root on. -/
inductive Hangs (nodes : Array (Node α)) : Nat → Nest α → List Nat → Prop where
  | leaf {i : Nat} {coefficient : α} {powers : List (Nat × Nat)}
      (place : nodes[i]? = some (.leaf coefficient powers)) :
      Hangs nodes i (.leaf coefficient powers) [i]
  | scaled {i var power factored : Nat} {inner : Nest α} {below : List Nat}
      (place : nodes[i]? = some (.factor var power factored none))
      (under : Hangs nodes factored inner below) :
      Hangs nodes i (.scaled var power inner) (i :: below)
  | joined {i var power factored rest : Nat} {inner outer : Nest α} {below beside : List Nat}
      (place : nodes[i]? = some (.factor var power factored (some rest)))
      (under : Hangs nodes factored inner below) (next : Hangs nodes rest outer beside) :
      Hangs nodes i (.joined var power inner outer) (i :: (below ++ beside))

theorem exists_hangs (descending : Descending nodes) {i : Nat} (inside : i < nodes.size) :
    ∃ nest positions, Hangs nodes i nest positions := by
  induction i using Nat.strong_induction_on with
  | _ i ih =>
      have place := Array.getElem?_eq_getElem inside
      have below := descending i _ place
      cases node : nodes[i] with
      | leaf coefficient powers =>
          rw [node] at place
          exact ⟨_, _, Hangs.leaf place⟩
      | factor var power factored rest =>
          rw [node] at place below
          have first := below factored (by simp [Node.children])
          rcases ih factored first (by omega) with ⟨inner, under, hangs⟩
          cases rest with
          | none => exact ⟨_, _, Hangs.scaled place hangs⟩
          | some rest =>
              have second := below rest (by simp [Node.children])
              rcases ih rest second (by omega) with ⟨outer, beside, alsoHangs⟩
              exact ⟨_, _, Hangs.joined place hangs alsoHangs⟩

theorem nestAt?_of_hangs {i : Nat} {nest : Nest α} {positions : List Nat}
    (descending : Descending nodes) (hangs : Hangs nodes i nest positions) :
    nestAt? nodes i = some nest := by
  induction hangs with
  | leaf place => exact nestAt?_of_leaf place
  | @scaled i var power factored inner below place under ih =>
      have first := descending i _ place factored (by simp [Node.children])
      rw [nestAt?_of_scaled place first, ih]
      rfl
  | @joined i var power factored rest inner outer below beside place under next innerIh outerIh =>
      have first := descending i _ place factored (by simp [Node.children])
      have second := descending i _ place rest (by simp [Node.children])
      rw [nestAt?_of_joined place first second, innerIh, outerIh]
      rfl

theorem lt_size_of_mem_positions {i : Nat} {nest : Nest α} {positions : List Nat}
    (hangs : Hangs nodes i nest positions) : ∀ j ∈ positions, j < nodes.size := by
  induction hangs with
  | leaf place =>
      rw [List.forall_mem_singleton]
      exact (Array.getElem?_eq_some_iff.mp place).1
  | scaled place under ih =>
      exact List.forall_mem_cons.mpr ⟨(Array.getElem?_eq_some_iff.mp place).1, ih⟩
  | joined place under next innerIh outerIh =>
      rw [List.forall_mem_cons, List.forall_mem_append]
      exact ⟨(Array.getElem?_eq_some_iff.mp place).1, innerIh, outerIh⟩

def childrenAt (nodes : Array (Node α)) (i : Nat) : List Nat := nodes[i]?.elim [] Node.children

theorem childrenAt_eq {i : Nat} {node : Node α} (place : nodes[i]? = some node) :
    childrenAt nodes i = node.children := by
  rw [childrenAt, place]
  rfl

theorem lt_of_mem_childrenAt (descending : Descending nodes) {i child : Nat}
    (named : child ∈ childrenAt nodes i) : child < i := by
  cases place : nodes[i]? with
  | none => simp [childrenAt, place] at named
  | some node =>
      rw [childrenAt_eq place] at named
      exact descending i node place child named

theorem positions_perm {i : Nat} {nest : Nest α} {positions : List Nat}
    (hangs : Hangs nodes i nest positions) :
    positions.Perm (i :: positions.flatMap (childrenAt nodes)) := by
  induction hangs with
  | leaf place => simp [childrenAt_eq place, Node.children]
  | scaled place under ih =>
      rw [List.flatMap_cons, childrenAt_eq place]
      exact ih.cons _
  | @joined i var power factored rest inner outer below beside place under next innerIh outerIh =>
      rw [List.flatMap_cons, childrenAt_eq place, List.flatMap_append]
      apply List.Perm.cons
      have swap : List.Perm
          ((factored :: below.flatMap (childrenAt nodes)) ++
            (rest :: beside.flatMap (childrenAt nodes)))
          ([factored, rest] ++
            (below.flatMap (childrenAt nodes) ++ beside.flatMap (childrenAt nodes))) := by
        rw [List.cons_append, List.cons_append]
        exact List.perm_middle.cons factored
      exact (innerIh.append outerIh).trans swap

theorem count_flatMap_later {children : Nat → List Nat}
    (descending : ∀ i, ∀ child ∈ children i, child < i) (i : Nat) (positions : List Nat) :
    (positions.flatMap children).count i =
      ((positions.filter fun j => decide (i < j)).flatMap children).count i := by
  induction positions with
  | nil => rfl
  | cons j positions ih =>
      rw [List.flatMap_cons, List.count_append, List.filter_cons]
      split
      · rw [List.flatMap_cons, List.count_append, ih]
      · rename_i early
        have absent : i ∉ children j := by
          intro named
          exact early (by simpa using descending j i named)
        rw [List.count_eq_zero.mpr absent, Nat.zero_add, ih]

/-- Lists that consist of the same root and of all children of their own positions agree: how often a
position stands there depends on the later ones only. -/
theorem perm_of_generated {children : Nat → List Nat} {root bound : Nat} {first second : List Nat}
    (descending : ∀ i, ∀ child ∈ children i, child < i)
    (firstBelow : ∀ i ∈ first, i < bound) (secondBelow : ∀ i ∈ second, i < bound)
    (firstMade : first.Perm (root :: first.flatMap children))
    (secondMade : second.Perm (root :: second.flatMap children)) : first.Perm second := by
  rw [List.perm_iff_count]
  intro i
  -- Only later positions have a child at `i`, so the induction goes down from the bound.
  induction distance : bound - i using Nat.strong_induction_on generalizing i with
  | _ distance ih =>
      by_cases beyond : bound ≤ i
      · have firstAbsent : i ∉ first := fun member => by have := firstBelow i member; omega
        have secondAbsent : i ∉ second := fun member => by have := secondBelow i member; omega
        rw [List.count_eq_zero.mpr firstAbsent, List.count_eq_zero.mpr secondAbsent]
      · have later : (first.filter fun j => decide (i < j)).Perm
            (second.filter fun j => decide (i < j)) := by
          rw [List.perm_iff_count]
          intro j
          by_cases after : i < j
          · rw [List.count_filter (by simpa using after), List.count_filter (by simpa using after)]
            exact ih (bound - j) (by omega) j rfl
          · rw [List.count_eq_zero.mpr (by simp [after]), List.count_eq_zero.mpr (by simp [after])]
        calc first.count i
          _ = (root :: first.flatMap children).count i := firstMade.count_eq i
          _ = (root :: second.flatMap children).count i := by
            rw [List.count_cons, List.count_cons, count_flatMap_later descending,
              count_flatMap_later descending i second, (later.flatMap_right children).count_eq]
          _ = second.count i := (secondMade.count_eq i).symm

theorem map_getElem?_range (nodes : Array (Node α)) :
    (List.range nodes.size).map (fun i => nodes[i]?) = nodes.toList.map some := by
  apply List.ext_getElem
  · simp
  · intro i inside _
    have below : i < nodes.size := by simpa using inside
    simp [below]

theorem flatMap_childrenAt_range (nodes : Array (Node α)) :
    (List.range nodes.size).flatMap (childrenAt nodes) = namedChildren nodes.toList := by
  have listed := congrArg (List.map fun entry => entry.elim [] Node.children)
    (map_getElem?_range nodes)
  rw [List.map_map, List.map_map] at listed
  exact congrArg List.flatten listed

theorem namedChildren_perm_range (tree : OneTree nodes) :
    (namedChildren nodes.toList).Perm (List.range (nodes.size - 1)) := by
  rw [List.perm_ext_iff_of_nodup tree.once List.nodup_range]
  intro i
  rw [List.mem_range]
  constructor
  · intro named
    rcases mem_namedChildren.mp named with ⟨parent, node, place, named⟩
    have before := tree.descending parent node place i named
    have inside := (Array.getElem?_eq_some_iff.mp place).1
    omega
  · intro before
    exact tree.named i (by omega)

theorem positions_perm_range {nest : Nest α} {positions : List Nat} (tree : OneTree nodes)
    (hangs : Hangs nodes (nodes.size - 1) nest positions) :
    positions.Perm (List.range nodes.size) := by
  have size : nodes.size = (nodes.size - 1) + 1 := by
    have := tree.nonempty
    omega
  have made : (List.range nodes.size).Perm
      ((nodes.size - 1) :: (List.range nodes.size).flatMap (childrenAt nodes)) := by
    rw [flatMap_childrenAt_range]
    conv_lhs => rw [size, List.range_succ]
    exact (List.perm_append_singleton _ _).trans ((namedChildren_perm_range tree).symm.cons _)
  exact perm_of_generated (fun i child => lt_of_mem_childrenAt tree.descending)
    (lt_size_of_mem_positions hangs) (fun i => List.mem_range.mp) (positions_perm hangs) made

def nodesAt (nodes : Array (Node α)) (positions : List Nat) : List (Node α) :=
  positions.filterMap fun i => nodes[i]?

theorem nodesAt_range (nodes : Array (Node α)) :
    nodesAt nodes (List.range nodes.size) = nodes.toList := by
  have values := congrArg (List.filterMap id) (map_getElem?_range nodes)
  rw [List.filterMap_map, List.filterMap_map, Function.id_comp, Function.id_comp,
    List.filterMap_some] at values
  exact values

/-- The walk through a tree comes by each node of its arena once. -/
theorem exists_walk {arena : Arena α} {nest : Nest α} (tree : OneTree arena.nodes)
    (found : arena.nest? = some nest) :
    ∃ positions, Hangs arena.nodes arena.root nest positions ∧
      (nodesAt arena.nodes positions).Perm arena.nodes.toList := by
  rcases exists_hangs tree.descending tree.last_lt with ⟨whole, positions, hangs⟩
  cases (nestAt?_of_hangs tree.descending hangs).symm.trans found
  refine ⟨positions, hangs, ?_⟩
  have each := (positions_perm_range tree hangs).filterMap fun i => arena.nodes[i]?
  rwa [← nodesAt, ← nodesAt, nodesAt_range] at each

theorem sumOf_nodes_eq {arena : Arena α} {nest : Nest α} (tree : OneTree arena.nodes)
    (found : arena.nest? = some nest) (ofNode : Node α → Nat) (ofNest : Nest α → Nat)
    (leaf : ∀ coefficient powers,
      ofNest (.leaf coefficient powers) = ofNode (.leaf coefficient powers))
    (scaled : ∀ var power i inner, nestAt? arena.nodes i = some inner →
      ofNest (.scaled var power inner) = ofNode (.factor var power i none) + ofNest inner)
    (joined : ∀ var power i j inner outer, nestAt? arena.nodes i = some inner →
      nestAt? arena.nodes j = some outer →
      ofNest (.joined var power inner outer) =
        ofNode (.factor var power i (some j)) + (ofNest inner + ofNest outer)) :
    sumOf (arena.nodes.toList.map ofNode) = ofNest nest := by
  have along {i : Nat} {part : Nest α} {positions : List Nat}
      (hangs : Hangs arena.nodes i part positions) :
      ((nodesAt arena.nodes positions).map ofNode).sum = ofNest part := by
    induction hangs with
    | leaf place => simp [nodesAt, place, leaf]
    | @scaled i var power factored inner below place under ih =>
        rw [scaled var power factored inner (nestAt?_of_hangs tree.descending under), ← ih]
        simp [nodesAt, place]
    | @joined i var power factored rest inner outer below beside place under next innerIh outerIh =>
        rw [joined var power factored rest inner outer (nestAt?_of_hangs tree.descending under)
          (nestAt?_of_hangs tree.descending next), ← innerIh, ← outerIh]
        simp [nodesAt, place]
  rcases exists_walk tree found with ⟨positions, hangs, each⟩
  calc sumOf (arena.nodes.toList.map ofNode)
    _ = (arena.nodes.toList.map ofNode).sum := rfl
    _ = ((nodesAt arena.nodes positions).map ofNode).sum := (each.map ofNode).sum_eq.symm
    _ = ofNest nest := along hangs

theorem exists_nest?_of_oneTree {arena : Arena α} (tree : OneTree arena.nodes) :
    ∃ nest, arena.nest? = some nest := by
  rcases exists_hangs tree.descending tree.last_lt with ⟨nest, positions, hangs⟩
  exact ⟨nest, nestAt?_of_hangs tree.descending hangs⟩

end Arena

theorem namedChildren_append (first second : List (Node α)) :
    namedChildren (first ++ second) = namedChildren first ++ namedChildren second :=
  List.flatMap_append

theorem range'_eq_append_last (start : Nat) {count : Nat} (positive : 0 < count) :
    List.range' start count = List.range' start (count - 1) ++ [start + count - 1] := by
  obtain ⟨less, rfl⟩ : ∃ less, count = less + 1 := ⟨count - 1, by omega⟩
  rw [List.range'_concat]
  simp

theorem namedChildren_listing_perm (nest : Nest α) (offset : Nat) :
    (namedChildren (nest.listing offset)).Perm (List.range' offset (nest.countNodes - 1)) := by
  induction nest generalizing offset with
  | leaf coefficient powers => rfl
  | scaled var power factored ih =>
      rw [Nest.listing, namedChildren_append, Nest.countNodes, Nat.add_sub_cancel,
        range'_eq_append_last offset factored.countNodes_pos]
      exact (ih offset).append_right _
  | joined var power factored rest innerIh outerIh =>
      have parts : List.range' offset (factored.countNodes + rest.countNodes) =
          List.range' offset factored.countNodes ++
            List.range' (offset + factored.countNodes) rest.countNodes := by
        rw [List.range'_append_1]
      rw [Nest.listing, namedChildren_append, namedChildren_append, Nest.countNodes,
        Nat.add_sub_cancel, parts, range'_eq_append_last offset factored.countNodes_pos,
        range'_eq_append_last (offset + factored.countNodes) rest.countNodes_pos]
      have inner := innerIh offset
      have outer := outerIh (offset + factored.countNodes)
      rw [List.perm_iff_count]
      intro i
      have last : namedChildren [Node.factor (α := α) var power (offset + factored.countNodes - 1)
          (some (offset + factored.countNodes + rest.countNodes - 1))] =
            [offset + factored.countNodes - 1] ++
              [offset + factored.countNodes + rest.countNodes - 1] := rfl
      rw [last]
      simp only [List.count_append, inner.count_eq, outer.count_eq]
      omega

theorem oneTree_arena (nest : Nest α) : OneTree nest.arena.nodes := by
  have size : nest.arena.nodes.size = nest.countNodes := by simp [Nest.arena]
  have named := namedChildren_listing_perm nest 0
  refine ⟨?_, descending_arena nest, ?_, ?_⟩
  · rw [size]
    exact nest.countNodes_pos
  · exact named.nodup_iff.mpr List.nodup_range'
  · intro i before
    rw [size] at before
    refine named.mem_iff.mpr ?_
    rw [List.mem_range'_1]
    omega

end NestedPoly
