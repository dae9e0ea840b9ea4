import Mathlib
import NestedPoly.Proofs.CostAccount
import NestedPoly.Proofs.Origin

namespace NestedPoly

variable {α : Type}

def pushDepth (depths : Array Nat) (node : Node α) : Array Nat :=
  depths.push (1 + (node.children.map fun child => depths.getD child 0).foldl max 0)

/-- The first `count` entries are the depths of the trees under the nodes. -/
structure Measured (nodes : Array (Node α)) (count : Nat) (depths : Array Nat) : Prop where
  size : depths.size = count
  entry : ∀ i < count, ∃ nest, Arena.nestAt? nodes i = some nest ∧ depths.getD i 0 = nest.depth

section
variable {nodes : Array (Node α)} {count : Nat} {depths : Array Nat}

theorem nest_depth_eq {node : Node α} (table : Measured nodes count depths)
    (descending : Descending nodes) (place : nodes[count]? = some node) :
    ∃ nest, Arena.nestAt? nodes count = some nest ∧
      nest.depth = 1 + (node.children.map fun child => depths.getD child 0).foldl max 0 := by
  have below := descending count node place
  cases node with
  | leaf coefficient powers => exact ⟨_, Arena.nestAt?_of_leaf place, rfl⟩
  | factor var power factored rest =>
      have first : factored < count := below factored (by simp [Node.children])
      rcases table.entry factored first with ⟨inner, found, depth⟩
      cases rest with
      | none =>
          have tree := Arena.nestAt?_of_scaled place first
          rw [found] at tree
          refine ⟨_, tree, ?_⟩
          simp [Nest.depth, Node.children, ← depth]
      | some rest =>
          have second : rest < count := below rest (by simp [Node.children])
          rcases table.entry rest second with ⟨outer, alsoFound, alsoDepth⟩
          have tree := Arena.nestAt?_of_joined place first second
          rw [found, alsoFound] at tree
          refine ⟨_, tree, ?_⟩
          simp [Nest.depth, Node.children, ← depth, ← alsoDepth]

theorem measured_push {node : Node α} (table : Measured nodes count depths)
    (descending : Descending nodes) (place : nodes[count]? = some node) :
    Measured nodes (count + 1) (pushDepth depths node) := by
  constructor
  · rw [pushDepth, Array.size_push, table.size]
  · intro i below
    rcases Nat.lt_succ_iff_lt_or_eq.mp below with earlier | rfl
    · rcases table.entry i earlier with ⟨nest, found, depth⟩
      have inside : i < depths.size := by
        rw [table.size]
        exact earlier
      refine ⟨nest, found, ?_⟩
      rw [← depth]
      simp [pushDepth, Array.getElem?_push_lt, inside]
    · rcases nest_depth_eq table descending place with ⟨nest, found, depth⟩
      refine ⟨nest, found, ?_⟩
      rw [depth, pushDepth, ← table.size]
      simp

theorem measured_foldl (descending : Descending nodes) :
    Measured nodes nodes.size (nodes.foldl pushDepth #[]) := by
  apply Array.foldl_induction (Measured nodes)
  · exact ⟨rfl, by simp⟩
  · intro i depths table
    exact measured_push table descending (Array.getElem?_eq_getElem i.2)

end

namespace Arena

theorem depth_eq_of_oneTree {arena : Arena α} {nest : Nest α} (tree : OneTree arena.nodes)
    (found : arena.nest? = some nest) : arena.depth = nest.depth := by
  have table := measured_foldl tree.descending
  rcases table.entry arena.root (root_lt_of_nest? found) with ⟨whole, same, depth⟩
  cases same.symm.trans found
  exact depth

theorem flatMap_namedPowers {nodes : Array (Node α)} {i : Nat} {nest : Nest α}
    {positions : List Nat} (hangs : Hangs nodes i nest positions) :
    ((nodesAt nodes positions).flatMap fun node => node.namedPowers.map Prod.fst) =
      nest.namedVariables := by
  induction hangs with
  | leaf place => simp [nodesAt, place, Node.namedPowers, Nest.namedVariables]
  | scaled place under ih =>
      rw [Nest.namedVariables, ← ih]
      simp [nodesAt, place, Node.namedPowers]
  | joined place under next innerIh outerIh =>
      rw [Nest.namedVariables, ← innerIh, ← outerIh]
      simp [nodesAt, place, Node.namedPowers]

theorem namedVariables_perm {arena : Arena α} {nest : Nest α} (tree : OneTree arena.nodes)
    (found : arena.nest? = some nest) : arena.namedVariables.Perm nest.namedVariables := by
  rcases exists_walk tree found with ⟨positions, hangs, each⟩
  rw [namedVariables, ← flatMap_namedPowers hangs]
  exact (each.flatMap_right _).symm

theorem largestVariable_eq_of_oneTree {arena : Arena α} {nest : Nest α}
    (tree : OneTree arena.nodes) (found : arena.nest? = some nest) :
    arena.largestVariable = nest.namedVariables.max? := by
  rw [largestVariable_eq]
  ext largest
  have same := namedVariables_perm tree found
  simp only [List.max?_eq_some_iff, same.mem_iff]

end Arena

section
variable [Scalar α] {point : Array α}

theorem named_of_scaleByPowers {start value : α} {powers : List (Nat × Nat)}
    (scaled : scaleByPowers point start powers = .ok value) :
    ∀ power ∈ powers, power.1 < point.size := by
  induction powers generalizing start with
  | nil => simp
  | cons power powers ih =>
      rw [scaleByPowers_cons] at scaled
      rcases bind_eq_ok_iff.mp scaled with ⟨coordinate, read, scaled⟩
      exact List.forall_mem_cons.mpr ⟨lt_of_fetch_eq_ok read, ih scaled⟩

theorem within_of_value {values : Array α} {node : Node α} {value : α}
    (computed : node.value point values = .ok value) : node.Within point.size := by
  cases node with
  | leaf coefficient powers => exact named_of_scaleByPowers computed
  | factor var power factored rest =>
      rcases bind_eq_ok_iff.mp computed with ⟨inner, _, computed⟩
      rcases bind_eq_ok_iff.mp computed with ⟨coordinate, read, _⟩
      exact lt_of_fetch_eq_ok read

theorem within_of_foldlM {nodes : List (Node α)} {start last : Array α}
    (passed : nodes.foldlM (fun values node => do
      return values.push (← node.value point values)) start = .ok last) :
    ∀ node ∈ nodes, node.Within point.size := by
  induction nodes generalizing start with
  | nil => simp
  | cons node nodes ih =>
      rw [List.foldlM_cons] at passed
      rcases bind_eq_ok_iff.mp passed with ⟨next, step, passed⟩
      rcases bind_eq_ok_iff.mp step with ⟨value, computed, _⟩
      exact List.forall_mem_cons.mpr ⟨within_of_value computed, ih passed⟩

theorem within_of_arena_eval {arena : Arena α} {value : α} (computed : arena.eval point = .ok value) :
    ∀ node ∈ arena.nodes, node.Within point.size := by
  rcases bind_eq_ok_iff.mp computed with ⟨values, passed, _⟩
  rw [← Array.foldlM_toList] at passed
  intro node member
  exact within_of_foldlM passed node (Array.mem_toList_iff.mpr member)

theorem named_of_nest_eval {nest : Nest α} {value : α} (computed : nest.eval point = .ok value) :
    ∀ var ∈ nest.namedVariables, var < point.size := by
  induction nest generalizing value with
  | leaf coefficient powers =>
      rw [Nest.namedVariables, List.forall_mem_map]
      exact named_of_scaleByPowers computed
  | scaled var power factored ih =>
      rcases bind_eq_ok_iff.mp computed with ⟨inner, below, computed⟩
      rcases bind_eq_ok_iff.mp computed with ⟨coordinate, read, _⟩
      exact List.forall_mem_cons.mpr ⟨lt_of_fetch_eq_ok read, ih below⟩
  | joined var power factored rest innerIh outerIh =>
      rcases bind_eq_ok_iff.mp computed with ⟨inner, below, computed⟩
      rcases bind_eq_ok_iff.mp computed with ⟨outer, beside, computed⟩
      rcases bind_eq_ok_iff.mp computed with ⟨coordinate, read, _⟩
      rw [Nest.namedVariables, List.forall_mem_cons, List.forall_mem_append]
      exact ⟨lt_of_fetch_eq_ok read, innerIh below, outerIh beside⟩

theorem arena_eval_eq_ok_iff {arena : Arena α} {nest : Nest α} (tree : OneTree arena.nodes)
    (found : arena.nest? = some nest) (value : α) :
    arena.eval point = .ok value ↔ nest.eval point = .ok value := by
  constructor
  · intro computed
    rwa [← arena_eval_eq tree.descending (within_of_arena_eval computed) found]
  · intro computed
    have named : ∀ var ∈ arena.namedVariables, var < point.size := by
      intro var member
      exact named_of_nest_eval computed var
        ((Arena.namedVariables_perm tree found).mem_iff.mp member)
    rwa [arena_eval_eq tree.descending (Arena.namedVariables_lt_iff.mp named) found]

/-- Whatever is asked of an accepted arena in one pass is what recursion from its root answers. -/
theorem queries_follow_recursion (nodes : Array (Node α)) (arena : Arena α)
    (accepted : Arena.ofNodes nodes = .ok arena) :
    ∃ nest, arena.nest? = some nest ∧
      (∀ (point : Array α) value, arena.eval point = .ok value ↔ nest.eval point = .ok value) ∧
      arena.cost = nest.cost ∧ arena.countLeaves = nest.countLeaves ∧
      arena.depth = nest.depth ∧ arena.largestVariable = nest.namedVariables.max? := by
  rcases Arena.ofNodes_eq_ok_iff.mp accepted with ⟨⟨_, tree⟩, rfl⟩
  rcases Arena.exists_nest?_of_oneTree tree with ⟨nest, found⟩
  exact ⟨nest, found, fun point => arena_eval_eq_ok_iff tree found,
    Arena.cost_eq_of_oneTree tree found, Arena.countLeaves_eq_of_oneTree tree found,
    Arena.depth_eq_of_oneTree tree found, Arena.largestVariable_eq_of_oneTree tree found⟩

theorem queries_follow_recursion_three :
    ∃ nest, Arena.nest? ⟨#[.leaf (3 : Int) [(1, 1)], .leaf 1 [], .factor 0 2 0 (some 1)]⟩ =
        some nest ∧
      nest.eval #[2, 3] = .ok 37 ∧ nest.cost = ⟨3, 1⟩ ∧ nest.countLeaves = 2 ∧ nest.depth = 2 ∧
      nest.namedVariables.max? = some 1 := by
  have accepted : Arena.ofNodes #[.leaf (3 : Int) [(1, 1)], .leaf 1 [], .factor 0 2 0 (some 1)] =
      .ok ⟨#[.leaf 3 [(1, 1)], .leaf 1 [], .factor 0 2 0 (some 1)]⟩ := by decide
  rcases queries_follow_recursion _ _ accepted with
    ⟨nest, found, value, cost, leaves, depth, largest⟩
  exact ⟨nest, found, (value #[2, 3] 37).mp (by cbv), cost.symm.trans (by decide),
    leaves.symm.trans (by decide), depth.symm.trans (by decide), largest.symm.trans (by decide)⟩

end

end NestedPoly
