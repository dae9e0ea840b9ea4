import Mathlib
import NestedPoly.Proofs.Shape

/-! Ways through an arena.

The check marks children in one pass, and never follows an edge. Still the lists that it accepts are
those in which exactly one way leads from the last node to each node: from a node one goes up to its
only parent, which lies after it, until the last node is reached. -/

namespace NestedPoly

variable {α : Type} {nodes : Array (Node α)}

namespace Arena

def childAt (nodes : Array (Node α)) (position turn : Nat) : Option Nat :=
  nodes[position]?.bind fun node => node.children[turn]?

/-- Where the turns lead to, one taken after the other. -/
def follow (nodes : Array (Node α)) : Nat → List Nat → Option Nat
  | start, [] => some start
  | start, turn :: turns => (childAt nodes start turn).bind fun child => follow nodes child turns

theorem childAt_eq_some_iff {position turn child : Nat} :
    childAt nodes position turn = some child ↔
      ∃ node, nodes[position]? = some node ∧ node.children[turn]? = some child := by
  rw [childAt, Option.bind_eq_some_iff]

theorem lt_size_of_childAt {position turn child : Nat}
    (edge : childAt nodes position turn = some child) : position < nodes.size := by
  rcases childAt_eq_some_iff.mp edge with ⟨node, place, _⟩
  exact (Array.getElem?_eq_some_iff.mp place).1

theorem childAt_lt {position turn child : Nat} (descending : Descending nodes)
    (edge : childAt nodes position turn = some child) : child < position := by
  rcases childAt_eq_some_iff.mp edge with ⟨node, place, named⟩
  exact descending position node place child (List.mem_of_getElem? named)

theorem mem_namedChildren_iff_childAt {child : Nat} :
    child ∈ namedChildren nodes.toList ↔
      ∃ position turn, childAt nodes position turn = some child := by
  rw [mem_namedChildren]
  constructor
  · intro named
    rcases named with ⟨position, node, place, named⟩
    rcases List.mem_iff_getElem?.mp named with ⟨turn, named⟩
    exact ⟨position, turn, childAt_eq_some_iff.mpr ⟨node, place, named⟩⟩
  · intro named
    rcases named with ⟨position, turn, edge⟩
    rcases childAt_eq_some_iff.mp edge with ⟨node, place, named⟩
    exact ⟨position, node, place, List.mem_of_getElem? named⟩

theorem nodup_namedChildren_iff : (namedChildren nodes.toList).Nodup ↔
    ∀ p q t s child, childAt nodes p t = some child → childAt nodes q s = some child →
      p = q ∧ t = s := by
  rw [namedChildren, List.nodup_flatMap, List.pairwise_iff_getElem]
  constructor
  · intro distinct p q t s child first second
    rcases distinct with ⟨within, apart⟩
    rcases childAt_eq_some_iff.mp first with ⟨node, place, named⟩
    rcases childAt_eq_some_iff.mp second with ⟨other, otherPlace, alsoNamed⟩
    rw [← Array.getElem?_toList] at place otherPlace
    rcases List.getElem?_eq_some_iff.mp place with ⟨inside, rfl⟩
    rcases List.getElem?_eq_some_iff.mp otherPlace with ⟨otherInside, rfl⟩
    have member := List.mem_of_getElem? named
    have alsoMember := List.mem_of_getElem? alsoNamed
    -- Two parents are told apart by their place, two turns of one parent by the list of its children.
    rcases Nat.lt_trichotomy p q with less | rfl | more
    · exact absurd alsoMember (apart p q inside otherInside less member)
    · refine ⟨rfl, ?_⟩
      have turnInside := (List.getElem?_eq_some_iff.mp named).1
      exact (List.getElem?_inj turnInside (within _ (List.getElem_mem inside))).mp
        (named.trans alsoNamed.symm)
    · exact absurd member (apart q p otherInside inside more alsoMember)
  · intro single
    constructor
    · intro node member
      rcases List.mem_iff_getElem?.mp member with ⟨p, place⟩
      rw [Array.getElem?_toList] at place
      rw [List.nodup_iff_getElem?_ne_getElem?]
      intro t s less below equal
      have last := List.getElem?_eq_getElem below
      have first := childAt_eq_some_iff.mpr ⟨node, place, equal.trans last⟩
      have second := childAt_eq_some_iff.mpr ⟨node, place, last⟩
      have same := (single p p t s _ first second).2
      omega
    · intro p q inside otherInside less child named alsoNamed
      rcases List.mem_iff_getElem?.mp named with ⟨t, named⟩
      rcases List.mem_iff_getElem?.mp alsoNamed with ⟨s, alsoNamed⟩
      have place := List.getElem?_eq_getElem inside
      have otherPlace := List.getElem?_eq_getElem otherInside
      rw [Array.getElem?_toList] at place otherPlace
      have first := childAt_eq_some_iff.mpr ⟨_, place, named⟩
      have second := childAt_eq_some_iff.mpr ⟨_, otherPlace, alsoNamed⟩
      have same := (single p q t s child first second).1
      omega

theorem follow_concat (start turn : Nat) (turns : List Nat) :
    follow nodes start (turns ++ [turn]) =
      (follow nodes start turns).bind fun last => childAt nodes last turn := by
  induction turns generalizing start with
  | nil => cases named : childAt nodes start turn <;> simp [follow, named]
  | cons first turns ih =>
      rw [List.cons_append, follow, follow, Option.bind_assoc]
      simp only [ih]

theorem follow_eq_some_iff {start last : Nat} {turns : List Nat} (elsewhere : last ≠ start) :
    follow nodes start turns = some last ↔
      ∃ before turn position, turns = before ++ [turn] ∧
        follow nodes start before = some position ∧ childAt nodes position turn = some last := by
  constructor
  · intro way
    rcases List.eq_nil_or_concat turns with rfl | ⟨before, turn, rfl⟩
    · exact absurd (Option.some.inj way).symm elsewhere
    · rw [List.concat_eq_append] at way ⊢
      rw [follow_concat, Option.bind_eq_some_iff] at way
      rcases way with ⟨position, way, edge⟩
      exact ⟨before, turn, position, rfl, way, edge⟩
  · intro way
    rcases way with ⟨before, turn, position, rfl, way, edge⟩
    rw [follow_concat, way]
    exact edge

theorem follow_le {start last : Nat} {turns : List Nat} (descending : Descending nodes)
    (way : follow nodes start turns = some last) : last + turns.length ≤ start := by
  induction turns generalizing start with
  | nil => exact Nat.le_of_eq (Option.some.inj way).symm
  | cons turn turns ih =>
      rcases Option.bind_eq_some_iff.mp way with ⟨child, edge, way⟩
      have below := childAt_lt descending edge
      have deeper := ih way
      rw [List.length_cons]
      omega

/-- To each node leads exactly one way from the last. -/
def OneWay (nodes : Array (Node α)) : Prop :=
  ∀ i < nodes.size, ∃! turns, follow nodes (nodes.size - 1) turns = some i

theorem existsUnique_follow_child {start position turn child : Nat} (elsewhere : child ≠ start)
    (once : (namedChildren nodes.toList).Nodup) (edge : childAt nodes position turn = some child)
    (unique : ∃! turns, follow nodes start turns = some position) :
    ∃! turns, follow nodes start turns = some child := by
  rcases unique with ⟨before, way, only⟩
  refine ⟨before ++ [turn], (follow_eq_some_iff elsewhere).mpr ⟨_, _, _, rfl, way, edge⟩, ?_⟩
  intro turns other
  rcases (follow_eq_some_iff elsewhere).mp other with ⟨others, last, parent, rfl, otherWay, otherEdge⟩
  rcases nodup_namedChildren_iff.mp once _ _ _ _ _ otherEdge edge with ⟨rfl, rfl⟩
  rw [only others otherWay]

theorem oneWay_of_oneTree (tree : OneTree nodes) : OneWay nodes := by
  intro i inside
  -- Going up, the distance to the last node shrinks.
  induction distance : nodes.size - i using Nat.strong_induction_on generalizing i with
  | _ distance ih =>
      by_cases last : i = nodes.size - 1
      · refine ⟨[], by rw [last]; rfl, ?_⟩
        intro turns way
        have length := follow_le tree.descending way
        exact List.eq_nil_of_length_eq_zero (by omega)
      · have named := tree.named i (by omega)
        rcases mem_namedChildren_iff_childAt.mp named with ⟨parent, turn, edge⟩
        have above := childAt_lt tree.descending edge
        have parentInside := lt_size_of_childAt edge
        exact existsUnique_follow_child last tree.once edge
          (ih (nodes.size - parent) (by omega) parent parentInside rfl)

theorem oneTree_of_oneWay (nonempty : 0 < nodes.size) (descending : Descending nodes)
    (ways : OneWay nodes) : OneTree nodes := by
  have below {p t child : Nat} (edge : childAt nodes p t = some child) :
      child ≠ nodes.size - 1 ∧ child < nodes.size := by
    have := childAt_lt descending edge
    have := lt_size_of_childAt edge
    omega
  refine ⟨nonempty, descending, ?_, ?_⟩
  · rw [nodup_namedChildren_iff]
    intro p q t s child first second
    rcases ways p (lt_size_of_childAt first) with ⟨before, way, _⟩
    rcases ways q (lt_size_of_childAt second) with ⟨others, otherWay, _⟩
    have same : before ++ [t] = others ++ [s] :=
      (ways child (below first).2).unique
        ((follow_eq_some_iff (below first).1).mpr ⟨_, _, _, rfl, way, first⟩)
        ((follow_eq_some_iff (below second).1).mpr ⟨_, _, _, rfl, otherWay, second⟩)
    rcases List.append_inj' same rfl with ⟨rfl, turn⟩
    rw [way] at otherWay
    exact ⟨Option.some.inj otherWay, List.singleton_injective turn⟩
  · intro i before
    rcases ways i (by omega) with ⟨turns, way, _⟩
    rcases (follow_eq_some_iff (by omega)).mp way with ⟨_, turn, position, _, _, edge⟩
    exact mem_namedChildren_iff_childAt.mpr ⟨position, turn, edge⟩

/-- The node is to blame for the defect. -/
def AtFault (nodes : Array (Node α)) (position : Nat) : ShapeDefect → Prop
  | .childNotBefore => ∃ node, nodes[position]? = some node ∧ ∃ child ∈ node.children, position ≤ child
  | .twoParents => 2 ≤ (namedChildren nodes.toList).count position
  | .unreachable => ∀ turns, follow nodes (nodes.size - 1) turns ≠ some position
  | .noNodes | .tooManyNodes => False

theorem atFault_of_verdict {fault : Fault} (nonempty : 0 < nodes.size)
    (small : nodes.size < UInt32.size) (verdict : ShapeVerdict nodes (.error fault)) :
    ∃ position defect, fault = .brokenTree position defect ∧ position < nodes.size ∧
      AtFault nodes position defect := by
  cases verdict with
  | noNodes empty => omega
  | tooManyNodes large => omega
  | childNotBefore place named after =>
      have inside := (Array.getElem?_eq_some_iff.mp place).1
      exact ⟨_, .childNotBefore, rfl, inside, _, place, _, named, after⟩
  | twoParents inside twice => exact ⟨_, .twoParents, rfl, inside, twice⟩
  | @unreachable orphan inside unnamed =>
      refine ⟨orphan, .unreachable, rfl, by omega, ?_⟩
      intro turns way
      rcases (follow_eq_some_iff (by omega)).mp way with ⟨_, turn, position, _, _, edge⟩
      exact unnamed (mem_namedChildren_iff_childAt.mpr ⟨position, turn, edge⟩)

/-- Accepted are the lists in which children lie before their parents and one way leads to each node.
The nodes are kept as they are, and of a list that is refused a node is named that is to blame. -/
theorem accepted_iff_oneWay (nodes : Array (Node α)) (small : nodes.size < UInt32.size) :
    ((∃ arena, ofNodes nodes = .ok arena) ↔
      nodes ≠ #[] ∧ Descending nodes ∧ OneWay nodes) ∧
    (∀ arena, ofNodes nodes = .ok arena →
      arena.nodes = nodes ∧ ofNodes arena.nodes = .ok arena) ∧
    (nodes ≠ #[] → ∀ fault, ofNodes nodes = .error fault →
      ∃ position defect, fault = .brokenTree position defect ∧ position < nodes.size ∧
        AtFault nodes position defect) := by
  refine ⟨?_, ?_, ?_⟩
  · constructor
    · intro accepted
      rcases accepted with ⟨arena, accepted⟩
      have tree := (ofNodes_eq_ok_iff.mp accepted).1.2
      have nonempty : nodes ≠ #[] := Array.size_pos_iff.mp tree.nonempty
      exact ⟨nonempty, tree.descending, oneWay_of_oneTree tree⟩
    · intro conditions
      rcases conditions with ⟨nonempty, descending, ways⟩
      have tree := oneTree_of_oneWay (Array.size_pos_iff.mpr nonempty) descending ways
      exact ⟨⟨nodes⟩, ofNodes_eq_ok_iff.mpr ⟨⟨small, tree⟩, rfl⟩⟩
  · intro arena accepted
    have kept := (ofNodes_eq_ok_iff.mp accepted).2
    subst kept
    exact ⟨rfl, accepted⟩
  · intro nonempty fault refused
    have verdict := ofNodes_verdict nodes
    rw [refused] at verdict
    exact atFault_of_verdict (Array.size_pos_iff.mpr nonempty) small verdict

theorem accepted_iff_oneWay_three :
    ((#[.leaf 3 [(1, 1)], .leaf 1 [], .factor 0 2 0 (some 1)] : Array (Node Int)).size <
        UInt32.size ∧
      ∃! turns, follow (#[.leaf 3 [(1, 1)], .leaf 1 [], .factor 0 2 0 (some 1)] :
        Array (Node Int)) 2 turns = some 1) ∧
    (ofNodes (#[.leaf 3 [], .factor 0 1 0 (some 0)] : Array (Node Int)) =
        .error (.brokenTree 0 .twoParents) ∧
      ∃ position defect, Fault.brokenTree 0 .twoParents = .brokenTree position defect ∧
        position < 2 ∧
        AtFault (#[.leaf 3 [], .factor 0 1 0 (some 0)] : Array (Node Int)) position defect) := by
  have accepted : ofNodes (#[.leaf 3 [(1, 1)], .leaf 1 [], .factor 0 2 0 (some 1)] :
      Array (Node Int)) = .ok ⟨#[.leaf 3 [(1, 1)], .leaf 1 [], .factor 0 2 0 (some 1)]⟩ := by decide
  have refused : ofNodes (#[.leaf 3 [], .factor 0 1 0 (some 0)] : Array (Node Int)) =
      .error (.brokenTree 0 .twoParents) := by decide
  have ways := ((accepted_iff_oneWay _ (by decide)).1.mp ⟨_, accepted⟩).2.2
  have blamed := (accepted_iff_oneWay _ (by decide)).2.2 (by decide) _ refused
  exact ⟨⟨by decide, ways 1 (by decide)⟩, refused, blamed⟩

end Arena

end NestedPoly
