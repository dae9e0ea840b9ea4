import Mathlib
import NestedPoly.Proofs.Listing

/-! One pass over an arena computes the values of the trees in it.

If children lie before their parents, every position has a tree under it, and when the pass comes to
a node the values of its children are in the table. So each step adds the value of one more tree. -/

namespace NestedPoly

variable {α : Type}

def Descending (nodes : Array (Node α)) : Prop :=
  ∀ (i : Nat) node, nodes[i]? = some node → ∀ child ∈ node.children, child < i

def Node.Within (dim : Nat) : Node α → Prop
  | .leaf _ powers => ∀ power ∈ powers, power.1 < dim
  | .factor var _ _ _ => var < dim

theorem eq_of_getElem?_singleton {entry only : Node α} {i : Nat}
    (place : [only][i]? = some entry) : i = 0 ∧ only = entry := by
  rw [List.getElem?_singleton] at place
  split at place
  · cases place
    exact ⟨‹_›, rfl⟩
  · cases place

theorem child_lt_of_listing (nest : Nest α) (offset : Nat) {i child : Nat} {node : Node α}
    (place : (nest.listing offset)[i]? = some node) (named : child ∈ node.children) :
    child < offset + i := by
  induction nest generalizing offset i with
  | leaf coefficient powers =>
      cases List.mem_singleton.mp (List.mem_of_getElem? place)
      cases named
  | scaled var power factored ih =>
      have positive := factored.countNodes_pos
      rw [Nest.listing, List.getElem?_append, Nest.length_listing] at place
      split at place
      · exact ih offset place
      · rename_i outside
        obtain ⟨root, rfl⟩ := eq_of_getElem?_singleton place
        have only : child = offset + factored.countNodes - 1 := by
          simpa [Node.children] using named
        omega
  | joined var power factored rest innerIh outerIh =>
      have positive := factored.countNodes_pos
      have restPositive := rest.countNodes_pos
      rw [Nest.listing, List.getElem?_append, List.length_append, Nest.length_listing,
        Nest.length_listing] at place
      split at place
      · rw [List.getElem?_append, Nest.length_listing] at place
        split at place
        · exact innerIh offset place
        · rename_i outside
          have below := outerIh (offset + factored.countNodes) place
          omega
      · rename_i outside
        obtain ⟨root, rfl⟩ := eq_of_getElem?_singleton place
        have either : child = offset + factored.countNodes - 1 ∨
            child = offset + factored.countNodes + rest.countNodes - 1 := by
          simpa [Node.children] using named
        omega

theorem descending_arena (nest : Nest α) : Descending nest.arena.nodes := by
  intro i node place child named
  rw [← Array.getElem?_toList] at place
  simpa using child_lt_of_listing nest 0 place named

theorem within_listing_iff (dim : Nat) (nest : Nest α) (offset : Nat) :
    (∀ node ∈ nest.listing offset, node.Within dim) ↔ ∀ var ∈ nest.namedVariables, var < dim := by
  induction nest generalizing offset with
  | leaf coefficient powers =>
      rw [Nest.listing, List.forall_mem_singleton, Nest.namedVariables, List.forall_mem_map]
      rfl
  | scaled var power factored ih =>
      rw [Nest.listing, List.forall_mem_append, ih, List.forall_mem_singleton,
        Nest.namedVariables, List.forall_mem_cons, and_comm]
      rfl
  | joined var power factored rest innerIh outerIh =>
      rw [Nest.listing, List.forall_mem_append, List.forall_mem_append, innerIh, outerIh,
        List.forall_mem_singleton, Nest.namedVariables, List.forall_mem_cons,
        List.forall_mem_append, and_comm]
      rfl

section
variable [Scalar α] {point values : Array α} {nodes : Array (Node α)}

theorem scaleByPowers_cons (point : Array α) (start : α) (power : Nat × Nat)
    (powers : List (Nat × Nat)) :
    scaleByPowers point start (power :: powers) =
      (fetch point power.1).bind fun coordinate =>
        scaleByPowers point (start * NestedPoly.power coordinate power.2) powers := by
  obtain ⟨var, exponent⟩ := power
  rw [scaleByPowers, List.foldlM_cons, bind_assoc]
  rfl

theorem exists_scaleByPowers (start : α) {powers : List (Nat × Nat)}
    (named : ∀ power ∈ powers, power.1 < point.size) :
    ∃ value, scaleByPowers point start powers = .ok value := by
  induction powers generalizing start with
  | nil => exact ⟨start, rfl⟩
  | cons power powers ih =>
      obtain ⟨below, others⟩ := List.forall_mem_cons.mp named
      obtain ⟨value, scaled⟩ := ih (start * NestedPoly.power point[power.1] power.2) others
      refine ⟨value, ?_⟩
      rw [scaleByPowers_cons, fetch_of_lt below]
      exact scaled

theorem exists_node_value {node : Node α} (children : ∀ child ∈ node.children, child < values.size)
    (named : node.Within point.size) : ∃ value, node.value point values = .ok value := by
  cases node with
  | leaf coefficient powers => exact exists_scaleByPowers coefficient named
  | factor var power factored rest =>
      have coordinate := fetch_of_lt named
      have inner := fetch_of_lt (children factored (by simp [Node.children]))
      cases rest with
      | none => simp [Node.value, coordinate, inner, bind, Except.bind, pure, Except.pure]
      | some rest =>
          have outer := fetch_of_lt (children rest (by simp [Node.children]))
          simp [Node.value, coordinate, inner, outer, bind, Except.bind, pure, Except.pure]

/-- The first `count` entries of the table are there, and are the values of the trees under the
nodes. -/
structure Tabulated (nodes : Array (Node α)) (point : Array α) (count : Nat) (values : Array α) :
    Prop where
  size : values.size = count
  entry : ∀ i < count, ∃ nest, Arena.nestAt? nodes i = some nest ∧
    nest.eval point = fetch values i

theorem value_eq_eval {count : Nat} {node : Node α} (table : Tabulated nodes point count values)
    (descending : Descending nodes) (place : nodes[count]? = some node) :
    ∃ nest, Arena.nestAt? nodes count = some nest ∧
      nest.eval point = node.value point values := by
  have below := descending count node place
  cases node with
  | leaf coefficient powers => exact ⟨_, Arena.nestAt?_of_leaf place, rfl⟩
  | factor var power factored rest =>
      have first : factored < count := below factored (by simp [Node.children])
      obtain ⟨inner, found, value⟩ := table.entry factored first
      cases rest with
      | none =>
          have tree := Arena.nestAt?_of_scaled place first
          rw [found] at tree
          refine ⟨_, tree, ?_⟩
          rw [Nest.eval, value]
          rfl
      | some rest =>
          have second : rest < count := below rest (by simp [Node.children])
          obtain ⟨outer, alsoFound, alsoValue⟩ := table.entry rest second
          have tree := Arena.nestAt?_of_joined place first second
          rw [found, alsoFound] at tree
          refine ⟨_, tree, ?_⟩
          have inside : rest < values.size := by rw [table.size]; exact second
          rw [Nest.eval, value, alsoValue]
          simp only [Node.value, fetch_of_lt inside]
          rfl

theorem tabulated_push {count : Nat} {node : Node α} {value : α}
    (table : Tabulated nodes point count values) (descending : Descending nodes)
    (place : nodes[count]? = some node) (computed : node.value point values = .ok value) :
    Tabulated nodes point (count + 1) (values.push value) := by
  constructor
  · rw [Array.size_push, table.size]
  · intro i below
    rcases Nat.lt_succ_iff_lt_or_eq.mp below with earlier | rfl
    · obtain ⟨nest, found, equal⟩ := table.entry i earlier
      have inside : i < values.size := by rw [table.size]; exact earlier
      have still : i < (values.push value).size := by rw [Array.size_push]; omega
      refine ⟨nest, found, ?_⟩
      rw [equal, fetch_of_lt inside, fetch_of_lt still, Array.getElem_push_lt]
    · obtain ⟨nest, found, equal⟩ := value_eq_eval table descending place
      refine ⟨nest, found, ?_⟩
      have last : fetch (values.push value) i = .ok value := by
        rw [← table.size]
        simp [fetch]
      rw [equal, computed, last]

theorem tabulated_of_foldlM (before : List (Node α)) {after : List (Node α)}
    {table last : Array α} (descending : Descending nodes) (layout : nodes.toList = before ++ after)
    (start : Tabulated nodes point before.length table)
    (passed : after.foldlM (fun values node => do
      return values.push (← node.value point values)) table = .ok last) :
    Tabulated nodes point nodes.size last := by
  induction after generalizing before table with
  | nil =>
      cases passed
      rw [← Array.length_toList, layout, List.append_nil]
      exact start
  | cons node after ih =>
      rw [List.foldlM_cons, bind_eq_ok_iff] at passed
      obtain ⟨next, step, passed⟩ := passed
      obtain ⟨value, computed, pushed⟩ := bind_eq_ok_iff.mp step
      cases pushed
      have place : nodes[before.length]? = some node := by
        rw [← Array.getElem?_toList, layout]
        simp
      apply ih (before ++ [node]) (by simp [layout]) _ passed
      rw [List.length_append]
      exact tabulated_push start descending place computed

theorem exists_foldlM (before : List (Node α)) {after : List (Node α)} {table : Array α}
    (descending : Descending nodes) (named : ∀ node ∈ nodes, node.Within point.size)
    (layout : nodes.toList = before ++ after) (size : table.size = before.length) :
    ∃ last, after.foldlM (fun values node => do
      return values.push (← node.value point values)) table = .ok last := by
  induction after generalizing before table with
  | nil => exact ⟨table, rfl⟩
  | cons node after ih =>
      have place : nodes[before.length]? = some node := by
        rw [← Array.getElem?_toList, layout]
        simp
      have children : ∀ child ∈ node.children, child < table.size := by
        rw [size]
        exact descending before.length node place
      obtain ⟨value, computed⟩ :=
        exists_node_value children (named node (Array.mem_of_getElem? place))
      have longer : (table.push value).size = (before ++ [node]).length := by
        rw [Array.size_push, size, List.length_append, List.length_singleton]
      obtain ⟨last, passed⟩ := ih (before ++ [node]) (by simp [layout]) longer
      refine ⟨last, ?_⟩
      rw [List.foldlM_cons, computed]
      exact passed

theorem exists_tabulated (descending : Descending nodes)
    (named : ∀ node ∈ nodes, node.Within point.size) :
    ∃ values, nodes.foldlM (fun values node => do
        return values.push (← node.value point values)) #[] = .ok values ∧
      Tabulated nodes point nodes.size values := by
  have empty : (#[] : Array α).size = ([] : List (Node α)).length := rfl
  have start : Tabulated nodes point ([] : List (Node α)).length #[] := ⟨rfl, by simp⟩
  obtain ⟨values, passed⟩ := exists_foldlM [] descending named (List.nil_append _).symm empty
  have table := tabulated_of_foldlM [] descending (List.nil_append _).symm start passed
  rw [Array.foldlM_toList] at passed
  exact ⟨values, passed, table⟩

theorem arena_eval_eq {arena : Arena α} {nest : Nest α} (descending : Descending arena.nodes)
    (named : ∀ node ∈ arena.nodes, node.Within point.size) (tree : arena.nest? = some nest) :
    arena.eval point = nest.eval point := by
  obtain ⟨values, passed, table⟩ := exists_tabulated descending named
  obtain ⟨found, same, value⟩ := table.entry arena.root (Arena.root_lt_of_nest? tree)
  cases same.symm.trans tree
  rw [Arena.eval, passed, value]
  rfl

theorem eval_arena {nest : Nest α} (named : ∀ var ∈ nest.namedVariables, var < point.size) :
    nest.arena.eval point = nest.eval point := by
  apply arena_eval_eq (descending_arena nest) _ nest.nest?_arena
  intro node member
  rw [← within_listing_iff point.size nest 0] at named
  exact named node (by simpa [Nest.arena] using member)

end

end NestedPoly
