import Mathlib
import NestedPoly.Proofs.Queries

/-! Where a polynomial and its nested form have values.

Of a point only the coordinates of the variables that occur are read. Taking powers out loses no
variable and brings none in, so a polynomial and its nested form have values at the same points, and
at the others both read a coordinate that is not there. -/

namespace NestedPoly

variable {α : Type}

theorem setOf_mem_nil {σ : Type} : {x | x ∈ ([] : List σ)} = ∅ := by simp

theorem setOf_mem_cons {σ : Type} (head : σ) (tail : List σ) :
    {x | x ∈ head :: tail} = {head} ∪ {x | x ∈ tail} :=
  Set.ext fun _ => List.mem_cons

theorem setOf_mem_append {σ : Type} (front back : List σ) :
    {x | x ∈ front ++ back} = {x | x ∈ front} ∪ {x | x ∈ back} :=
  Set.ext fun _ => List.mem_append

/-- What comes of reading the coordinates of these variables: a result if the point has all of them,
and else the fault of one that it has not. -/
inductive Reads {τ : Type} (point : Array α) (used : Set Nat) : Except Fault τ → Prop where
  | result {result : τ} (within : ∀ var ∈ used, var < point.size) : Reads point used (.ok result)
  | beyond {var : Nat} (named : var ∈ used) (outside : point.size ≤ var) :
      Reads point used (.error (.pastEnd point.size var))

section
variable {σ τ : Type} {point : Array α} {used more : Set Nat}

theorem reads_nothing (result : τ) : Reads point ∅ (.ok result) :=
  Reads.result fun _ absurdity => absurdity.elim

theorem reads_fetch (point : Array α) (var : Nat) : Reads point {var} (fetch point var) := by
  by_cases inside : var < point.size
  · rw [fetch_of_lt inside]
    apply Reads.result
    intro other same
    rwa [Set.mem_singleton_iff.mp same]
  · have absent : fetch point var = .error (.pastEnd point.size var) := by
      simp [fetch, inside]
    rw [absent]
    exact Reads.beyond (Set.mem_singleton var) (Nat.le_of_not_lt inside)

theorem Reads.bind {first : Except Fault σ} {next : σ → Except Fault τ}
    (reads : Reads point used first)
    (after : ∀ value, first = .ok value → Reads point more (next value)) :
    Reads point (used ∪ more) (first >>= next) := by
  cases reads with
  | @result value within =>
      have rest := after value rfl
      change Reads point (used ∪ more) (next value)
      generalize next value = outcome at rest
      cases rest with
      | result alsoWithin =>
          apply Reads.result
          intro var either
          exact either.elim (within var) (alsoWithin var)
      | beyond named outside => exact Reads.beyond (.inr named) outside
  | beyond named outside => exact Reads.beyond (.inl named) outside

end

def occurring (monomials : List (Monomial α)) : Set Nat :=
  {var | ∃ m ∈ monomials, 0 < m.exponent var}

theorem occurring_cons (m : Monomial α) (monomials : List (Monomial α)) :
    occurring (m :: monomials) = {var | 0 < m.exponent var} ∪ occurring monomials := by
  ext var
  simp [occurring]

theorem mem_powers_iff (m : Monomial α) (var : Nat) :
    var ∈ m.powers.map Prod.fst ↔ 0 < m.exponent var := by
  rw [List.mem_map, Monomial.exponent, List.getD_eq_getElem?_getD]
  constructor
  · intro listed
    rcases listed with ⟨power, listed, rfl⟩
    rcases mem_nonzeroPowers.mp listed with ⟨place, positive⟩
    rwa [place]
  · intro positive
    cases place : m.exponents[var]? with
    | none => simp [place] at positive
    | some exponent =>
        rw [place] at positive
        exact ⟨(var, exponent), mem_nonzeroPowers.mpr ⟨place, positive⟩, rfl⟩

section
variable [Scalar α]

theorem reads_scaleByPowers (point : Array α) (start : α) (powers : List (Nat × Nat)) :
    Reads point {var | var ∈ powers.map Prod.fst} (scaleByPowers point start powers) := by
  induction powers generalizing start with
  | nil =>
      rw [List.map_nil, setOf_mem_nil]
      exact reads_nothing start
  | cons power powers ih =>
      rw [List.map_cons, setOf_mem_cons, scaleByPowers_cons]
      exact (reads_fetch point power.1).bind fun coordinate _ => ih _

theorem reads_monomial (point : Array α) (m : Monomial α) :
    Reads point {var | 0 < m.exponent var} (m.eval point) := by
  have same : {var | var ∈ m.powers.map Prod.fst} = {var | 0 < m.exponent var} :=
    Set.ext (mem_powers_iff m)
  rw [← same]
  exact reads_scaleByPowers point m.coefficient m.powers

theorem reads_foldlM (point : Array α) (monomials : List (Monomial α)) (start : α) :
    Reads point (occurring monomials)
      (monomials.foldlM (fun sum m => do return sum + (← m.eval point)) start) := by
  induction monomials generalizing start with
  | nil =>
      have none : occurring ([] : List (Monomial α)) = ∅ := by simp [occurring]
      rw [none]
      exact reads_nothing start
  | cons m monomials ih =>
      rw [occurring_cons, List.foldlM_cons, bind_assoc]
      exact (reads_monomial point m).bind fun value _ => ih (start + value)

theorem reads_sparse (poly : SparsePoly α) (point : Array α) :
    Reads point (occurring poly.monomials) (poly.evalRaw point) :=
  reads_foldlM point poly.monomials Scalar.emptySum

theorem reads_node {point values : Array α} {node : Node α}
    (children : ∀ child ∈ node.children, child < values.size) :
    Reads point {var | var ∈ node.namedPowers.map Prod.fst} (node.value point values) := by
  cases node with
  | leaf coefficient powers => exact reads_scaleByPowers point coefficient powers
  | factor var power factored rest =>
      have only : {other | other ∈ (Node.factor var power factored rest : Node α).namedPowers.map
          Prod.fst} = {var} := by
        ext other
        simp [Node.namedPowers]
      have inner := fetch_of_lt (children factored List.mem_cons_self)
      rw [only, ← Set.union_empty {var}, Node.value, inner]
      apply (reads_fetch point var).bind
      intro coordinate _
      cases rest with
      | none => exact reads_nothing _
      | some rest =>
          have outer := fetch_of_lt (children rest (by simp [Node.children]))
          simp only [outer]
          exact reads_nothing _

theorem reads_pass {nodes : Array (Node α)} {point : Array α} (before : List (Node α))
    {after : List (Node α)} {table : Array α} (descending : Descending nodes)
    (layout : nodes.toList = before ++ after) (size : table.size = before.length) :
    Reads point {var | var ∈ after.flatMap fun node => node.namedPowers.map Prod.fst}
      (after.foldlM (fun values node => do
        return values.push (← node.value point values)) table) := by
  induction after generalizing before table with
  | nil =>
      rw [List.flatMap_nil, setOf_mem_nil]
      exact reads_nothing table
  | cons node after ih =>
      have place : nodes[before.length]? = some node := by
        rw [← Array.getElem?_toList, layout]
        simp
      have children : ∀ child ∈ node.children, child < table.size := by
        rw [size]
        exact descending before.length node place
      rw [List.flatMap_cons, setOf_mem_append, List.foldlM_cons, bind_assoc]
      apply (reads_node children).bind
      intro value _
      apply ih (before ++ [node])
      · simp [layout]
      · rw [Array.size_push, size, List.length_append, List.length_singleton]

theorem reads_arena {arena : Arena α} (tree : OneTree arena.nodes) (point : Array α) :
    Reads point {var | var ∈ arena.namedVariables} (arena.eval point) := by
  have passed : Reads point {var | var ∈ arena.namedVariables}
      (arena.nodes.toList.foldlM (fun values node => do
        return values.push (← node.value point values)) #[]) :=
    reads_pass [] tree.descending (List.nil_append _).symm rfl
  rw [Arena.eval, ← Array.foldlM_toList, ← Set.union_empty {var | var ∈ arena.namedVariables}]
  apply passed.bind
  intro values computed
  have start : Tabulated arena.nodes point ([] : List (Node α)).length #[] := ⟨rfl, by simp⟩
  have table := tabulated_of_foldlM [] tree.descending (List.nil_append _).symm start computed
  have inside : arena.root < values.size := by
    rw [table.size]
    exact tree.last_lt
  rw [fetch_of_lt inside]
  exact reads_nothing _

end

section
variable {dim var : Nat} {rule : Rule α dim} {monomials : List (Monomial α)}

theorem occurring_sides (occurs : 0 < degreeIn monomials var) :
    occurring monomials =
      {var} ∪ (occurring (quotients var monomials) ∪ occurring (lacking var monomials)) := by
  ext other
  constructor
  · rintro ⟨m, member, positive⟩
    have side := (having_append_lacking_perm var monomials).mem_iff.mpr member
    rcases List.mem_append.mp side with inside | outside
    · by_cases same : other = var
      · exact .inl same
      · have kept : (m.quotient var (commonPower var monomials)).exponent other =
            m.exponent other := by
          rw [exponent_quotient, if_neg same, Nat.sub_zero]
        exact .inr (.inl ⟨_, List.mem_map.mpr ⟨m, inside, rfl⟩, kept ▸ positive⟩)
    · exact .inr (.inr ⟨m, outside, positive⟩)
  · intro named
    rcases named with same | inside | outside
    · rw [Set.mem_singleton_iff.mp same]
      exact exists_exponent_pos monomials var occurs
    · rcases inside with ⟨quotient, member, positive⟩
      rcases List.mem_map.mp member with ⟨m, inside, rfl⟩
      rw [exponent_quotient] at positive
      exact ⟨m, List.mem_of_mem_filter inside, Nat.lt_of_lt_of_le positive (Nat.sub_le _ _)⟩
    · rcases outside with ⟨m, member, positive⟩
      exact ⟨m, List.mem_of_mem_filter member, positive⟩

theorem namedVariables_greedyForm {nest : Nest α} (form : GreedyForm rule monomials nest) :
    {var | var ∈ nest.namedVariables} = occurring monomials := by
  induction form with
  | leaf m =>
      ext var
      rw [Set.mem_ofPred_eq, Nest.namedVariables, mem_powers_iff]
      simp [occurring]
  | @scaled monomials var factored several leading whole inner ih =>
      have none : occurring (lacking var monomials) = ∅ := by simp [whole, occurring]
      rw [occurring_sides (rule.occurs leading), none, Set.union_empty, ← ih, Nest.namedVariables, setOf_mem_cons]
  | @joined monomials var factored rest several leading divided inner outer innerIh outerIh =>
      rw [occurring_sides (rule.occurs leading), ← innerIh, ← outerIh, Nest.namedVariables, setOf_mem_cons,
        setOf_mem_append]

end

/-- Both refuse the point for its length, or both read the coordinate of a used variable that the
point does not have, or both have a value. -/
inductive Alike (point : Array α) (used : Set Nat) : Except Fault α → Except Fault α → Prop where
  | refused {dim : Nat} (wrong : point.size ≠ dim) :
      Alike point used (.error (.wrongDimension dim point.size))
        (.error (.wrongDimension dim point.size))
  | beyond {var other : Nat} (named : var ∈ used) (outside : point.size ≤ var)
      (alsoNamed : other ∈ used) (alsoOutside : point.size ≤ other) :
      Alike point used (.error (.pastEnd point.size var)) (.error (.pastEnd point.size other))
  | valued (value other : α) : Alike point used (.ok value) (.ok other)

theorem alike_of_reads {point : Array α} {used : Set Nat} {first second : Except Fault α}
    (reads : Reads point used first) (also : Reads point used second) :
    Alike point used first second := by
  cases reads with
  | result within =>
      cases also with
      | result => exact Alike.valued _ _
      | beyond named outside => exact absurd (within _ named) (Nat.not_lt.mpr outside)
  | beyond named outside =>
      cases also with
      | result within => exact absurd (within _ named) (Nat.not_lt.mpr outside)
      | beyond alsoNamed alsoOutside => exact Alike.beyond named outside alsoNamed alsoOutside

section
variable [Scalar α] {point : Array α} {used : Set Nat} {poly : SparsePoly α} {form : NestedForm α}

theorem alike_evalStrict (dims : form.dim = poly.dim)
    (alike : Alike point used (poly.evalRaw point) (form.evalRaw point)) :
    Alike point used (evalStrict poly point) (evalStrict form point) := by
  have same : Evaluable.dim form = Evaluable.dim poly := dims
  rw [evalStrict_eq, evalStrict_eq, same]
  split
  · exact alike
  · rename_i wrong
    exact Alike.refused wrong

theorem sparse_eval_eq (poly : SparsePoly α) (point : Array α) :
    poly.eval point = if poly.checked then evalStrict poly point else poly.evalRaw point := by
  unfold SparsePoly.eval
  split <;> rfl

theorem nested_eval_eq (form : NestedForm α) (point : Array α) :
    form.eval point = if form.checked then evalStrict form point else form.evalRaw point := by
  unfold NestedForm.eval
  split <;> rfl

/-- A nested form names the variables that occur in its polynomial, and no others. So, checked or not,
both refuse the same points, and read beyond the end of the same points. -/
theorem nested_defined_alike (built : poly.nested.outcome = .ok form) :
    (∀ var, var ∈ form.arena.namedVariables ↔ ∃ m ∈ poly.monomials, 0 < m.exponent var) ∧
    ∀ point : Array α,
      Alike point (occurring poly.monomials) (poly.eval point) (form.eval point) ∧
      Alike point (occurring poly.monomials) (evalStrict poly point) (evalStrict form point) ∧
      Alike point (occurring poly.monomials) (poly.evalRaw point) (form.evalRaw point) := by
  have built : (factorMonomials ⟨poly.checked, true⟩ poly.dim poly.monomials).outcome = .ok form :=
    built
  rcases greedyForm_of_outcome_eq_ok built with ⟨_, _, nest, shape, _, rfl⟩
  have tree := oneTree_arena nest
  have named : {var | var ∈ nest.arena.namedVariables} = occurring poly.monomials := by
    rw [← namedVariables_greedyForm shape]
    ext var
    exact (Arena.namedVariables_perm tree nest.nest?_arena).mem_iff
  constructor
  · intro var
    exact Set.ext_iff.mp named var
  · intro point
    have reads := reads_arena tree point
    rw [named] at reads
    have raw := alike_of_reads (reads_sparse poly point) reads
    have strict : Alike point (occurring poly.monomials) (evalStrict poly point)
        (evalStrict (NestedForm.ofArena nest.arena poly.dim poly.checked) point) :=
      alike_evalStrict rfl raw
    have either : Alike point (occurring poly.monomials) (poly.eval point)
        ((NestedForm.ofArena nest.arena poly.dim poly.checked).eval point) := by
      rw [sparse_eval_eq, nested_eval_eq]
      change Alike point _ _ (if poly.checked then _ else _)
      split
      · exact strict
      · exact raw
    exact ⟨either, strict, raw⟩

theorem nested_defined_alike_three : ∃ (poly : SparsePoly Int) (form : NestedForm Int),
    SparsePoly.ofMonomials 2 [⟨5, [2, 1]⟩, ⟨3, [1, 0]⟩, ⟨7, [0, 1]⟩] .lenient = .ok poly ∧
      poly.nested.outcome = .ok form ∧
      (1 ∈ form.arena.namedVariables ↔ ∃ m ∈ poly.monomials, 0 < m.exponent 1) ∧
      Alike #[2] (occurring poly.monomials) (poly.eval #[2]) (form.eval #[2]) := by
  have made : SparsePoly.ofMonomials 2 [⟨(5 : Int), [2, 1]⟩, ⟨3, [1, 0]⟩, ⟨7, [0, 1]⟩] .lenient =
      .ok ⟨[⟨5, [2, 1]⟩, ⟨3, [1, 0]⟩, ⟨7, [0, 1]⟩], 2, [2, 1], false⟩ := by cbv
  have built : (⟨[⟨5, [2, 1]⟩, ⟨3, [1, 0]⟩, ⟨7, [0, 1]⟩], 2, [2, 1], false⟩ :
      SparsePoly Int).nested.outcome =
        .ok ⟨⟨#[.leaf 5 [(1, 1)], .leaf 3 [], .factor 0 1 0 (some 1), .leaf 7 [(1, 1)],
          .factor 0 1 2 (some 3)]⟩, 2, ⟨4, 2⟩, false⟩ := by cbv
  have alike := nested_defined_alike built
  exact ⟨_, _, made, built, alike.1 1, (alike.2 #[2]).1⟩

end

end NestedPoly
