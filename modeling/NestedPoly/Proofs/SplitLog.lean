import Mathlib
import NestedPoly.Proofs.CostAccount

/-! What the reported splits tell about the nested form.

Splits are reported while the nodes above them are still to be built, with the sizes of the branches
that they make. Read from the first to the last they walk through the finished tree from the root, and
the size of a branch is the number of leaves that come of it. -/

namespace NestedPoly

variable {α : Type} {dim : Nat} {monomials : List (Monomial α)} {nest : Nest α}

def Event.split? : Event → Option Split
  | split made => some made
  | _ => none

def Report.splits {τ : Type} (report : Report τ) : List Split :=
  report.events.filterMap Event.split?

theorem filterMap_split? {before after : List Event} (silent : before.filterMap Event.split? = [])
    (alsoSilent : after.filterMap Event.split? = []) (splits : List Split) :
    (before ++ splits.map Event.split ++ after).filterMap Event.split? = splits := by
  rw [List.filterMap_append, List.filterMap_append, silent, alsoSilent, List.nil_append,
    List.append_nil, List.filterMap_map]
  exact List.filterMap_some

theorem silent_of_prepare {options : FactoringOptions} {coding : Option PrimeCoding}
    {terms : List (Term α)} {notes : List Event}
    (start : prepare options dim monomials = (coding, terms, notes)) :
    notes.filterMap Event.split? = [] := by
  unfold prepare at start
  dsimp only at start
  split at start
  · split at start
    · cases start
      rfl
    · cases start
      rfl
  · cases start
    rfl

theorem splits_factorMonomials (options : FactoringOptions)
    (form : GreedyForm (Rule.wrapped α dim) monomials nest) (present : monomials ≠ [])
    (uniform : ∀ m ∈ monomials, m.dim = dim) (room : nest.countNodes ≤ nodeLimit) :
    (factorMonomials options dim monomials).splits = nest.splits := by
  have plain := @buildNodes_of_greedyForm α dim nest (plainTerms monomials).toArray
  rw [residuals_plainTerms] at plain
  rcases start : prepare options dim monomials with ⟨coding, terms, notes⟩
  have silent := silent_of_prepare start
  obtain ⟨faultless, -, splits⟩ := built_eq start
  rw [plain form uniform room] at faultless splits
  unfold factorMonomials
  rw [if_neg (by simpa using present), checkDimensions_eq_ok_iff.mpr uniform]
  simp only [start, faultless, splits, List.reverse_reverse]
  cases (build coding dim terms.toArray).1.built.finish with
  | none =>
      rw [Report.splits, ← List.append_nil (notes ++ _)]
      exact filterMap_split? silent rfl nest.splits
  | some arena => exact filterMap_split? silent rfl nest.splits

/-- The split that a node stands for, if it is no leaf: its variable and power, and the leaves below
its children. -/
def Node.split? (nodes : Array (Node α)) : Node α → Option Split
  | .leaf .. => none
  | .factor var power factored rest =>
    some ⟨var, power, Arena.leavesBelow nodes factored, rest.elim 0 (Arena.leavesBelow nodes)⟩

theorem Arena.leavesBelow_eq {nodes : Array (Node α)} {i : Nat} {positions : List Nat}
    (descending : Descending nodes) (hangs : Arena.Hangs nodes i nest positions) :
    Arena.leavesBelow nodes i = nest.countLeaves := by
  rw [Arena.leavesBelow, Arena.nestAt?_of_hangs descending hangs]
  rfl

theorem filterMap_nodesAt {nodes : Array (Node α)} {i : Nat} {positions : List Nat}
    (descending : Descending nodes) (hangs : Arena.Hangs nodes i nest positions) :
    (Arena.nodesAt nodes positions).filterMap (Node.split? nodes) = nest.splits := by
  induction hangs with
  | leaf place => simp [Arena.nodesAt, place, Node.split?, Nest.splits]
  | scaled place under ih =>
      have leaves := Arena.leavesBelow_eq descending under
      rw [Nest.splits, ← ih]
      simp [Arena.nodesAt, place, Node.split?, leaves]
  | joined place under next innerIh outerIh =>
      have leaves := Arena.leavesBelow_eq descending under
      have others := Arena.leavesBelow_eq descending next
      rw [Nest.splits, ← innerIh, ← outerIh]
      simp [Arena.nodesAt, place, Node.split?, leaves, others]

/-- The reported splits are those of the tree that is built, each node before its factored branch and
that before the rest. They belong to the nodes of the arena that are no leaves, each of them once. -/
theorem split_log_walks_tree {options : FactoringOptions} {form : NestedForm α}
    (built : (factorMonomials options dim monomials).outcome = .ok form) :
    ∃ nest, form.arena.nest? = some nest ∧
      (factorMonomials options dim monomials).splits = nest.splits ∧
      ∃ positions, Arena.Hangs form.arena.nodes form.arena.root nest positions ∧
        positions.Perm (List.range form.arena.size) ∧
        (factorMonomials options dim monomials).splits =
          (Arena.nodesAt form.arena.nodes positions).filterMap
            (Node.split? form.arena.nodes) := by
  rcases greedyForm_of_outcome_eq_ok built with ⟨present, uniform, nest, shape, room, rfl⟩
  have tree := oneTree_arena nest
  have found := nest.nest?_arena
  have reported := splits_factorMonomials options shape present uniform room
  rcases Arena.exists_walk tree found with ⟨positions, hangs, _⟩
  refine ⟨nest, found, reported, positions, hangs, Arena.positions_perm_range tree hangs, ?_⟩
  rw [reported]
  exact (filterMap_nodesAt tree.descending hangs).symm

theorem split_log_walks_tree_three : ∃ form : NestedForm Int,
    (factorMonomials ⟨true, true⟩ 2 [⟨5, [2, 1]⟩, ⟨3, [1, 0]⟩, ⟨7, [0, 1]⟩]).outcome = .ok form ∧
      form.arena.nest? = some (.joined 0 1 (.joined 0 1 (.leaf 5 [(1, 1)]) (.leaf 3 []))
        (.leaf 7 [(1, 1)])) ∧
      (factorMonomials ⟨true, true⟩ 2 [⟨(5 : Int), [2, 1]⟩, ⟨3, [1, 0]⟩, ⟨7, [0, 1]⟩]).splits =
        [⟨0, 1, 2, 1⟩, ⟨0, 1, 1, 1⟩] := by
  have built : (factorMonomials ⟨true, true⟩ 2
      [⟨(5 : Int), [2, 1]⟩, ⟨3, [1, 0]⟩, ⟨7, [0, 1]⟩]).outcome =
        .ok ⟨⟨#[.leaf 5 [(1, 1)], .leaf 3 [], .factor 0 1 0 (some 1), .leaf 7 [(1, 1)],
          .factor 0 1 2 (some 3)]⟩, 2, ⟨4, 2⟩, true⟩ := by cbv
  have read : Arena.nest? ⟨#[.leaf (5 : Int) [(1, 1)], .leaf 3 [], .factor 0 1 0 (some 1),
      .leaf 7 [(1, 1)], .factor 0 1 2 (some 3)]⟩ =
        some (.joined 0 1 (.joined 0 1 (.leaf 5 [(1, 1)]) (.leaf 3 [])) (.leaf 7 [(1, 1)])) := by
    cbv
  rcases split_log_walks_tree built with ⟨nest, found, splits, _⟩
  cases read.symm.trans found
  exact ⟨_, built, found, splits⟩

end NestedPoly
