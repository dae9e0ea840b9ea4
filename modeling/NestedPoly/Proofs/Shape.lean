import Mathlib
import NestedPoly.Arena.Shape
import NestedPoly.Proofs.ArenaPass

/-! What the shape check asks for.

The check goes once over the nodes, looks at each edge to a child by itself, and marks the child. What
it has found out by the end is a property of the list of all edges: children lie before their parents,
no position is named twice, and every position but the last is named. -/

namespace NestedPoly

variable {α : Type}

def namedChildren (nodes : List (Node α)) : List Nat := nodes.flatMap Node.children

def edgesFrom (first : Nat) (nodes : List (Node α)) : List (Nat × Nat) :=
  (nodes.zipIdx first).flatMap fun (node, parent) => node.children.map fun child => (parent, child)

theorem edgesFrom_cons (first : Nat) (node : Node α) (nodes : List (Node α)) :
    edgesFrom first (node :: nodes) =
      (node.children.map fun child => (first, child)) ++ edgesFrom (first + 1) nodes := rfl

theorem map_snd_edgesFrom (first : Nat) (nodes : List (Node α)) :
    (edgesFrom first nodes).map Prod.snd = namedChildren nodes := by
  induction nodes generalizing first with
  | nil => rfl
  | cons node nodes ih =>
      have ends : (node.children.map fun child => (first, child)).map Prod.snd = node.children := by
        simp
      rw [edgesFrom_cons, List.map_append, ih, ends]
      rfl

theorem mem_edgesFrom {nodes : List (Node α)} {parent child : Nat} :
    (parent, child) ∈ edgesFrom 0 nodes ↔
      ∃ node, nodes[parent]? = some node ∧ child ∈ node.children := by
  simp only [edgesFrom, List.mem_flatMap, List.mem_map, Prod.exists, List.mem_zipIdx_iff_getElem?,
    Prod.mk.injEq]
  constructor
  · intro edge
    rcases edge with ⟨node, _, place, _, named, rfl, rfl⟩
    exact ⟨node, place, named⟩
  · intro edge
    rcases edge with ⟨node, place, named⟩
    exact ⟨node, parent, place, child, named, rfl, rfl⟩

theorem mem_namedChildren {nodes : Array (Node α)} {child : Nat} :
    child ∈ namedChildren nodes.toList ↔
      ∃ (parent : Nat) (node : Node α), nodes[parent]? = some node ∧ child ∈ node.children := by
  rw [← map_snd_edgesFrom 0, List.mem_map]
  constructor
  · intro named
    rcases named with ⟨⟨parent, _⟩, edge, rfl⟩
    rcases mem_edgesFrom.mp edge with ⟨node, place, named⟩
    exact ⟨parent, node, by rw [← Array.getElem?_toList]; exact place, named⟩
  · intro named
    rcases named with ⟨parent, node, place, named⟩
    rw [← Array.getElem?_toList] at place
    exact ⟨(parent, child), mem_edgesFrom.mpr ⟨node, place, named⟩, rfl⟩

/-- The nodes are those of one tree, whose root is the last. -/
structure OneTree (nodes : Array (Node α)) : Prop where
  nonempty : 0 < nodes.size
  descending : Descending nodes
  once : (namedChildren nodes.toList).Nodup
  named : ∀ i, i + 1 < nodes.size → i ∈ namedChildren nodes.toList

theorem OneTree.last_lt {nodes : Array (Node α)} (tree : OneTree nodes) :
    nodes.size - 1 < nodes.size :=
  Nat.sub_one_lt_of_lt tree.nonempty

namespace Arena

/-- The table marks the positions that are given to a parent. -/
structure Marks (total : Nat) (given : List Nat) (table : Array Bool) : Prop where
  size : table.size = total
  entry : ∀ i < total, table[i]? = some (decide (i ∈ given))

inductive EdgeVerdict (total : Nat) (given : List Nat) (parent child : Nat) :
    Except Fault (Array Bool) → Prop where
  | notBefore (after : parent ≤ child) :
      EdgeVerdict total given parent child (.error (.brokenTree parent .childNotBefore))
  | again (before : child < parent) (already : child ∈ given) :
      EdgeVerdict total given parent child (.error (.brokenTree child .twoParents))
  | taken {table : Array Bool} (before : child < parent) (fresh : child ∉ given)
      (marks : Marks total (given ++ [child]) table) :
      EdgeVerdict total given parent child (.ok table)

theorem marks_set {total child : Nat} {given : List Nat} {table : Array Bool}
    (marks : Marks total given table) (inside : child < total) :
    Marks total (given ++ [child]) (table.setIfInBounds child true) := by
  constructor
  · rw [Array.size_setIfInBounds, marks.size]
  · intro i below
    rw [Array.getElem?_setIfInBounds]
    by_cases same : child = i
    · rw [if_pos same, if_pos (by rw [marks.size]; exact inside)]
      simp [same]
    · have other : i ≠ child := fun equal => same equal.symm
      rw [if_neg same, marks.entry i below]
      simp [other]

theorem takeChild_verdict {total parent child : Nat} {given : List Nat} {table : Array Bool}
    (marks : Marks total given table) (inside : parent < total) :
    EdgeVerdict total given parent child (takeChild parent table child) := by
  unfold takeChild
  split
  · rename_i after
    exact EdgeVerdict.notBefore after
  · rename_i before
    have below : child < total := by omega
    have entry : table.getD child false = decide (child ∈ given) := by
      rw [Array.getD_eq_getD_getElem?, marks.entry child below]
      rfl
    rw [entry]
    by_cases already : child ∈ given
    · rw [if_pos (by simpa using already)]
      exact EdgeVerdict.again (by omega) already
    · rw [if_neg (by simpa using already)]
      exact EdgeVerdict.taken (by omega) already (marks_set marks below)

inductive EdgesVerdict (total : Nat) (given : List Nat) (edges : List (Nat × Nat)) :
    Except Fault (Array Bool) → Prop where
  | notBefore {edge : Nat × Nat} (member : edge ∈ edges) (after : edge.1 ≤ edge.2) :
      EdgesVerdict total given edges (.error (.brokenTree edge.1 .childNotBefore))
  | again {edge : Nat × Nat} (member : edge ∈ edges) (before : edge.2 < edge.1)
      (twice : 2 ≤ (given ++ edges.map Prod.snd).count edge.2) :
      EdgesVerdict total given edges (.error (.brokenTree edge.2 .twoParents))
  | taken {table : Array Bool} (before : ∀ edge ∈ edges, edge.2 < edge.1)
      (fresh : (given ++ edges.map Prod.snd).Nodup)
      (marks : Marks total (given ++ edges.map Prod.snd) table) :
      EdgesVerdict total given edges (.ok table)

theorem edgesVerdict_cons {total : Nat} {given : List Nat} {edge : Nat × Nat}
    {edges : List (Nat × Nat)} {result : Except Fault (Array Bool)} (before : edge.2 < edge.1)
    (rest : EdgesVerdict total (given ++ [edge.2]) edges result) :
    EdgesVerdict total given (edge :: edges) result := by
  have shift : (given ++ [edge.2]) ++ edges.map Prod.snd =
      given ++ (edge :: edges).map Prod.snd := by simp
  cases rest with
  | notBefore member after => exact EdgesVerdict.notBefore (List.mem_cons_of_mem _ member) after
  | again member earlier twice =>
      rw [shift] at twice
      exact EdgesVerdict.again (List.mem_cons_of_mem _ member) earlier twice
  | taken earlier fresh marks =>
      rw [shift] at fresh marks
      exact EdgesVerdict.taken (List.forall_mem_cons.mpr ⟨before, earlier⟩) fresh marks

theorem foldlM_takeChild_verdict {total : Nat} {given : List Nat} {edges : List (Nat × Nat)}
    {table : Array Bool} (marks : Marks total given table) (fresh : given.Nodup)
    (inside : ∀ edge ∈ edges, edge.1 < total) :
    EdgesVerdict total given edges
      (edges.foldlM (fun table edge => takeChild edge.1 table edge.2) table) := by
  induction edges generalizing given table with
  | nil => exact EdgesVerdict.taken (by simp) (by simpa using fresh) (by simpa using marks)
  | cons edge edges ih =>
      rcases List.forall_mem_cons.mp inside with ⟨first, others⟩
      have verdict : EdgeVerdict total given edge.1 edge.2 (takeChild edge.1 table edge.2) :=
        takeChild_verdict marks first
      rw [List.foldlM_cons]
      generalize takeChild edge.1 table edge.2 = next at verdict
      cases verdict with
      | notBefore after => exact EdgesVerdict.notBefore List.mem_cons_self after
      | again before already =>
          have positive := List.count_pos_iff.mpr already
          refine EdgesVerdict.again List.mem_cons_self before ?_
          rw [List.count_append, List.map_cons, List.count_cons_self]
          omega
      | taken before unmarked marks =>
          have distinct : (given ++ [edge.2]).Nodup := by
            rw [← List.concat_eq_append]
            exact List.Nodup.concat unmarked fresh
          exact edgesVerdict_cons before (ih marks distinct others)

theorem foldlM_takeChildren_eq (first : Nat) (nodes : List (Node α)) (table : Array Bool) :
    (nodes.zipIdx first).foldlM (fun table (node, parent) =>
        node.children.foldlM (takeChild parent) table) table =
      (edgesFrom first nodes).foldlM (fun table edge => takeChild edge.1 table edge.2) table := by
  induction nodes generalizing first table with
  | nil => rfl
  | cons node nodes ih =>
      rw [edgesFrom_cons, List.foldlM_append, List.foldlM_map, List.zipIdx_cons, List.foldlM_cons]
      simp only [ih]

theorem takeChildren_verdict (nodes : Array (Node α)) :
    EdgesVerdict nodes.size [] (edgesFrom 0 nodes.toList) (takeChildren nodes) := by
  have unmarked : Marks nodes.size [] (Array.replicate nodes.size false) := by
    constructor
    · exact Array.size_replicate
    · intro i below
      simp [below]
  have inside : ∀ edge ∈ edgesFrom 0 nodes.toList, edge.1 < nodes.size := by
    intro edge member
    rcases mem_edgesFrom.mp member with ⟨node, place, _⟩
    exact (List.getElem?_eq_some_iff.mp place).1
  rw [takeChildren, foldlM_takeChildren_eq]
  exact foldlM_takeChild_verdict unmarked List.nodup_nil inside

/-- The verdicts on a list of nodes, of which the last excludes the others. -/
inductive ShapeVerdict (nodes : Array (Node α)) : Except Fault (Arena α) → Prop where
  | noNodes (empty : nodes.size = 0) : ShapeVerdict nodes (.error (.brokenTree 0 .noNodes))
  | tooManyNodes (large : UInt32.size ≤ nodes.size) :
      ShapeVerdict nodes (.error (.brokenTree (nodes.size - 1) .tooManyNodes))
  | childNotBefore {parent child : Nat} {node : Node α} (place : nodes[parent]? = some node)
      (named : child ∈ node.children) (after : parent ≤ child) :
      ShapeVerdict nodes (.error (.brokenTree parent .childNotBefore))
  | twoParents {child : Nat} (inside : child < nodes.size)
      (twice : 2 ≤ (namedChildren nodes.toList).count child) :
      ShapeVerdict nodes (.error (.brokenTree child .twoParents))
  | unreachable {orphan : Nat} (inside : orphan + 1 < nodes.size)
      (unnamed : orphan ∉ namedChildren nodes.toList) :
      ShapeVerdict nodes (.error (.brokenTree orphan .unreachable))
  | accepted (small : nodes.size < UInt32.size) (tree : OneTree nodes) :
      ShapeVerdict nodes (.ok ⟨nodes⟩)

theorem descending_of_edges {nodes : Array (Node α)}
    (before : ∀ edge ∈ edgesFrom 0 nodes.toList, edge.2 < edge.1) : Descending nodes := by
  intro parent node place child named
  rw [← Array.getElem?_toList] at place
  exact before (parent, child) (mem_edgesFrom.mpr ⟨node, place, named⟩)

theorem verdict_of_marks {nodes : Array (Node α)} {table : Array Bool}
    (nonempty : 0 < nodes.size) (small : nodes.size < UInt32.size) (descending : Descending nodes)
    (once : (namedChildren nodes.toList).Nodup)
    (marks : Marks nodes.size (namedChildren nodes.toList) table) :
    ShapeVerdict nodes (match table.toList.dropLast.idxOf? false with
      | some orphan => .error (.brokenTree orphan .unreachable)
      | none => .ok ⟨nodes⟩) := by
  have length : table.toList.dropLast.length = nodes.size - 1 := by
    rw [List.length_dropLast, Array.length_toList, marks.size]
  have entry : ∀ i (below : i < table.toList.dropLast.length),
      table.toList.dropLast[i] = decide (i ∈ namedChildren nodes.toList) := by
    intro i below
    have marked := marks.entry i (by omega)
    rw [List.getElem_dropLast, ← Option.some.injEq, ← marked, Array.getElem_toList]
    exact (Array.getElem?_eq_getElem _).symm
  split
  · rename_i orphan found
    rcases List.idxOf?_eq_some_iff.mp found with ⟨below, unmarked, _⟩
    rw [entry orphan below, decide_eq_false_iff_not] at unmarked
    exact ShapeVerdict.unreachable (by omega) unmarked
  · rename_i found
    refine ShapeVerdict.accepted small ⟨nonempty, descending, once, ?_⟩
    intro i before
    have below : i < table.toList.dropLast.length := by omega
    by_contra unnamed
    have unmarked : table.toList.dropLast[i] = false := by rw [entry i below]; simpa using unnamed
    rw [List.idxOf?_eq_none_iff] at found
    exact found (unmarked ▸ List.getElem_mem below)

theorem ofNodes_verdict (nodes : Array (Node α)) : ShapeVerdict nodes (ofNodes nodes) := by
  unfold ofNodes
  split
  · rename_i empty
    exact ShapeVerdict.noNodes (by simpa using empty)
  · rename_i present
    have nonempty : 0 < nodes.size := by simpa [Nat.pos_iff_ne_zero] using present
    split
    · rename_i large
      exact ShapeVerdict.tooManyNodes large
    · rename_i small
      have verdict := takeChildren_verdict nodes
      generalize takeChildren nodes = result at verdict
      cases verdict with
      | @notBefore edge member after =>
          rcases mem_edgesFrom.mp member with ⟨node, place, named⟩
          rw [Array.getElem?_toList] at place
          exact ShapeVerdict.childNotBefore place named after
      | @again edge member before twice =>
          rcases mem_edgesFrom.mp member with ⟨node, place, _⟩
          have inside := (List.getElem?_eq_some_iff.mp place).1
          rw [Array.length_toList] at inside
          rw [List.nil_append, map_snd_edgesFrom] at twice
          exact ShapeVerdict.twoParents (by omega) twice
      | taken before fresh marks =>
          rw [List.nil_append, map_snd_edgesFrom] at fresh marks
          exact verdict_of_marks nonempty (by omega) (descending_of_edges before) fresh marks

/-- Accepted are the nodes of one tree, and they are kept as they are. -/
theorem ofNodes_eq_ok_iff {nodes : Array (Node α)} {arena : Arena α} :
    ofNodes nodes = .ok arena ↔
      (nodes.size < UInt32.size ∧ OneTree nodes) ∧ arena = ⟨nodes⟩ := by
  have verdict := ofNodes_verdict nodes
  constructor
  · intro accepted
    rw [accepted] at verdict
    cases verdict with
    | accepted small tree => exact ⟨⟨small, tree⟩, rfl⟩
  · intro conditions
    rcases conditions with ⟨⟨small, tree⟩, rfl⟩
    generalize ofNodes nodes = result at verdict
    cases verdict with
    | noNodes empty => exact absurd tree.nonempty (by omega)
    | tooManyNodes large => exact absurd small (by omega)
    | childNotBefore place named after =>
        have before := tree.descending _ _ place _ named
        omega
    | @twoParents child inside twice =>
        have single := List.nodup_iff_count_le_one.mp tree.once child
        omega
    | @unreachable orphan inside unnamed => exact absurd (tree.named orphan inside) unnamed
    | accepted => rfl

end Arena

end NestedPoly
