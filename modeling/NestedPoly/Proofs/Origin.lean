import Mathlib
import NestedPoly.Proofs.Positions
import NestedPoly.Proofs.Outcome
import NestedPoly.Proofs.ExactEvaluation
import NestedPoly.Proofs.Widths

namespace NestedPoly

variable {α : Type}

mutual

/-- The arenas that there can be: of nodes that are accepted, read from a document, or taken out of a
nested form. -/
inductive Arena.Obtained : Arena Float → Prop where
  | accepted {nodes : Array (Node Float)} {arena : Arena Float} (fits : ∀ node ∈ nodes, node.Fits)
      (accepted : Arena.ofNodes nodes = .ok arena) : Arena.Obtained arena
  | loaded {document : Document} {arena : Arena Float} (read : Arena.load document = .ok arena) :
      Arena.Obtained arena
  | taken {form : NestedForm Float} (obtained : NestedForm.Obtained form) :
      Arena.Obtained form.arena

/-- The nested forms that there can be. -/
inductive NestedForm.Obtained : NestedForm Float → Prop where
  | rows {coefficients : List Float} {rows : List (List Int)} {options : BuildOptions}
      {form : NestedForm Float} (narrow : ∀ row ∈ rows, row.length < UInt64.size)
      (built : (NestedForm.ofRows coefficients rows options).outcome = .ok form) :
      NestedForm.Obtained form
  | factored {poly : SparsePoly Float} {options : FactoringOptions} {form : NestedForm Float}
      (fits : poly.Fits) (built : (poly.factor options).outcome = .ok form) :
      NestedForm.Obtained form
  | nested {poly : SparsePoly Float} {form : NestedForm Float} (fits : poly.Fits)
      (built : poly.nested.outcome = .ok form) : NestedForm.Obtained form
  | monomials {options : FactoringOptions} {dim : Nat} {monomials : List (Monomial Float)}
      {form : NestedForm Float} (narrow : dim < UInt64.size) (fits : ∀ m ∈ monomials, m.Fits)
      (built : (factorMonomials options dim monomials).outcome = .ok form) :
      NestedForm.Obtained form
  | wrapped {arena : Arena Float} {dim : Nat} {checked : Bool} {form : NestedForm Float}
      (obtained : Arena.Obtained arena) (narrow : dim < UInt64.size)
      (accepted : NestedForm.ofArena? arena dim checked = .ok form) : NestedForm.Obtained form
  | loaded {document : Document} {form : NestedForm Float}
      (read : NestedForm.load document = .ok form) : NestedForm.Obtained form

end

/-- One tree of nodes, as many as can be numbered. -/
structure Arena.Sound (arena : Arena α) : Prop where
  tree : OneTree arena.nodes
  small : arena.size < UInt32.size
  fits : ∀ node ∈ arena.nodes, node.Fits

structure NestedForm.Sound (form : NestedForm α) : Prop where
  arena : form.arena.Sound
  narrow : form.dim < UInt64.size
  within : ∀ node ∈ form.arena.nodes, node.Within form.dim
  cost : form.cost = form.arena.cost

theorem max?_flatMap {τ : Type} (parts : τ → List Nat) (items : List τ) :
    (items.flatMap parts).max? = (items.filterMap fun item => (parts item).max?).max? := by
  ext var
  rw [List.max?_eq_some_iff, List.max?_eq_some_iff]
  simp only [List.mem_flatMap, List.mem_filterMap]
  constructor
  · intro largest
    rcases largest with ⟨⟨item, member, listed⟩, above⟩
    refine ⟨⟨item, member, List.max?_eq_some_iff.mpr ⟨listed, ?_⟩⟩, ?_⟩
    · intro other alsoListed
      exact above other ⟨item, member, alsoListed⟩
    · intro other found
      rcases found with ⟨part, within, found⟩
      exact above other ⟨part, within, List.max?_mem found⟩
  · intro largest
    rcases largest with ⟨⟨item, member, found⟩, above⟩
    refine ⟨⟨item, member, List.max?_mem found⟩, ?_⟩
    intro other listed
    rcases listed with ⟨part, within, listed⟩
    cases found : (parts part).max? with
    | none =>
        rw [List.max?_eq_none_iff] at found
        rw [found] at listed
        cases listed
    | some best =>
        have below := (List.max?_eq_some_iff.mp found).2 other listed
        exact Nat.le_trans below (above best ⟨part, within, found⟩)

namespace Arena

def namedVariables (arena : Arena α) : List Nat :=
  arena.nodes.toList.flatMap fun node => node.namedPowers.map Prod.fst

theorem namedVariables_lt_iff {arena : Arena α} {dim : Nat} :
    (∀ var ∈ arena.namedVariables, var < dim) ↔ ∀ node ∈ arena.nodes, node.Within dim := by
  simp only [namedVariables, List.forall_mem_flatMap, List.forall_mem_map, Array.mem_toList_iff,
    Node.within_iff]

theorem largestVariable_eq (arena : Arena α) :
    arena.largestVariable = arena.namedVariables.max? := by
  have each (node : Node α) : node.largestVariable = (node.namedPowers.map Prod.fst).max? := by
    cases node <;> rfl
  rw [namedVariables, max?_flatMap, largestVariable]
  simp only [each]

end Arena

namespace NestedForm

/-- What comes of an arena, by the variables that it names. -/
inductive WrapVerdict (arena : Arena α) (dim : Nat) (checked : Bool) :
    Except Fault (NestedForm α) → Prop where
  | beyond {var : Nat} (named : var ∈ arena.namedVariables) (outside : dim ≤ var)
      (largest : ∀ other ∈ arena.namedVariables, other ≤ var) :
      WrapVerdict arena dim checked (.error (.variableBeyond var dim))
  | within (inside : ∀ var ∈ arena.namedVariables, var < dim) :
      WrapVerdict arena dim checked (.ok (ofArena arena dim checked))

theorem ofArena?_verdict (arena : Arena α) (dim : Nat) (checked : Bool) :
    WrapVerdict arena dim checked (ofArena? arena dim checked) := by
  unfold ofArena?
  rw [Arena.largestVariable_eq]
  split
  · rename_i var found
    rcases List.max?_eq_some_iff.mp found with ⟨named, largest⟩
    split
    · rename_i outside
      exact WrapVerdict.beyond named outside largest
    · rename_i inside
      apply WrapVerdict.within
      intro other alsoNamed
      have below := largest other alsoNamed
      omega
  · rename_i none
    rw [List.max?_eq_none_iff] at none
    apply WrapVerdict.within
    rw [none]
    simp

theorem ofArena?_eq_ok_iff {arena : Arena α} {dim : Nat} {checked : Bool} {form : NestedForm α} :
    ofArena? arena dim checked = .ok form ↔
      (∀ var ∈ arena.namedVariables, var < dim) ∧ form = ofArena arena dim checked := by
  have verdict := ofArena?_verdict arena dim checked
  generalize ofArena? arena dim checked = result at verdict
  cases verdict with
  | @beyond var named outside largest =>
      simp only [reduceCtorEq, false_iff, not_and]
      intro inside
      exact absurd (inside var named) (by omega)
  | within inside =>
      rw [and_iff_right inside, Except.ok.injEq, eq_comm]

theorem exists_fault_iff {arena : Arena α} {dim : Nat} {checked : Bool} :
    (∃ fault, ofArena? arena dim checked = .error fault) ↔
      ∃ var ∈ arena.namedVariables, dim ≤ var := by
  have verdict := ofArena?_verdict arena dim checked
  generalize ofArena? arena dim checked = result at verdict
  cases verdict with
  | @beyond var named outside largest =>
      exact iff_of_true ⟨_, rfl⟩ ⟨var, named, outside⟩
  | within inside =>
      refine iff_of_false (by simp) ?_
      intro beyond
      rcases beyond with ⟨var, named, outside⟩
      exact absurd (inside var named) (by omega)

end NestedForm

theorem child_lt_size {nodes : Array (Node α)} (descending : Descending nodes) {node : Node α}
    (member : node ∈ nodes) : ∀ child ∈ node.children, child < nodes.size := by
  intro child named
  rcases Array.mem_iff_getElem?.mp member with ⟨i, place⟩
  have before := descending i node place child named
  have inside := (Array.getElem?_eq_some_iff.mp place).1
  omega

theorem mapError_eq_ok_iff {ε σ τ : Type} {wrap : ε → σ} {tried : Except ε τ} {result : τ} :
    tried.mapError wrap = .ok result ↔ tried = .ok result := by
  cases tried <;> simp [Except.mapError]

theorem mapM_eq_ok_some_iff {ε σ τ : Type} {f : σ → Except ε τ} {entry : Option σ} {result : τ} :
    entry.mapM f = .ok (some result) ↔ ∃ part, entry = some part ∧ f part = .ok result := by
  cases entry with
  | none => simp [pure, Except.pure]
  | some part => cases tried : f part <;> simp [tried, Functor.map, Except.map]

namespace Arena

theorem sound_of_ofNodes {nodes : Array (Node α)} {arena : Arena α}
    (fits : ∀ node ∈ nodes, node.Fits) (accepted : ofNodes nodes = .ok arena) : arena.Sound := by
  rcases ofNodes_eq_ok_iff.mp accepted with ⟨⟨small, tree⟩, rfl⟩
  exact ⟨tree, small, fits⟩

theorem sound_of_load {document : Document} {arena : Arena Float}
    (read : load document = .ok arena) : arena.Sound := by
  rcases bind_eq_ok_iff.mp read with ⟨nodes, listed, accepted⟩
  have fits : ∀ node ∈ nodes.toArray, node.Fits := by
    intro node member
    rcases Load.exists_of_mem_list listed (List.mem_toArray.mp member) with ⟨part, read⟩
    exact Node.fits_of_load read
  exact sound_of_ofNodes fits (mapError_eq_ok_iff.mp accepted)

end Arena

namespace NestedForm

theorem sound_of_factored {options : FactoringOptions} {dim : Nat} {monomials : List (Monomial α)}
    {form : NestedForm α} (narrow : dim < UInt64.size) (fits : ∀ m ∈ monomials, m.Fits)
    (built : (factorMonomials options dim monomials).outcome = .ok form) : form.Sound := by
  have small := size_lt_of_outcome_eq_ok built
  rcases greedyForm_of_outcome_eq_ok built with ⟨_, uniform, nest, shape, _, rfl⟩
  have tree := oneTree_arena nest
  have within : ∀ node ∈ nest.arena.nodes, node.Within dim := by
    simpa [Nest.arena] using (within_listing_iff dim nest 0).mpr (namedVariables_lt shape uniform)
  have powers : ∀ node ∈ nest.arena.nodes, ∀ power ∈ node.namedPowers, power.2 < UInt32.size := by
    simpa [Nest.arena] using power_lt_of_mem_listing shape fits 0
  refine ⟨⟨tree, small, ?_⟩, narrow, within, rfl⟩
  -- No number was looked at. Positions are small since children lie before their parents.
  intro node member
  constructor
  · intro power named
    have below := Node.within_iff.mp (within node member) power named
    exact ⟨Nat.lt_trans below narrow, powers node member power named⟩
  · intro child named
    exact Nat.lt_trans (child_lt_size tree.descending member child named) small

theorem sound_of_factor {poly : SparsePoly α} {options : FactoringOptions} {form : NestedForm α}
    (fits : poly.Fits) (built : (poly.factor options).outcome = .ok form) : form.Sound :=
  sound_of_factored fits.dim fits.monomials built

theorem sound_of_ofRows {coefficients : List α} {rows : List (List Int)} {options : BuildOptions}
    {form : NestedForm α} (narrow : ∀ row ∈ rows, row.length < UInt64.size)
    (built : (ofRows coefficients rows options).outcome = .ok form) : form.Sound := by
  unfold ofRows at built
  cases read : SparsePoly.ofRows coefficients rows options with
  | error fault =>
      rw [read] at built
      cases built
  | ok poly =>
      simp only [read] at built
      rcases SparsePoly.ofRows_eq_ok_iff.mp read with ⟨present, readable, made⟩
      rcases SparsePoly.ofMonomials_eq_ok made with ⟨dims, same⟩
      refine sound_of_factored ?_ ?_ built
      · rw [dims]
        cases rows with
        | nil => exact absurd rfl present
        | cons row rows => exact narrow row List.mem_cons_self
      · intro m member
        exact fits_of_mem_rowMonomials readable m (same.mem_iff.mp member)

theorem sound_of_ofArena? {arena : Arena α} {dim : Nat} {checked : Bool} {form : NestedForm α}
    (sound : arena.Sound) (narrow : dim < UInt64.size)
    (accepted : ofArena? arena dim checked = .ok form) : form.Sound := by
  rcases ofArena?_eq_ok_iff.mp accepted with ⟨inside, rfl⟩
  exact ⟨sound, narrow, Arena.namedVariables_lt_iff.mp inside, rfl⟩

theorem sound_of_ofParts {tree dimension : Option Document} {arena? : Option (Arena Float)}
    {dim? : Option Nat} {checked? : Option Bool} {form : NestedForm Float}
    (readTree : tree.mapM Arena.load = .ok arena?) (readDim : dimension.mapM Load.word = .ok dim?)
    (together : ofParts arena? dim? checked? = .ok form) : form.Sound := by
  unfold ofParts at together
  split at together
  · rcases mapM_eq_ok_some_iff.mp readTree with ⟨_, _, readTree⟩
    rcases mapM_eq_ok_some_iff.mp readDim with ⟨_, _, readDim⟩
    exact sound_of_ofArena? (Arena.sound_of_load readTree) (Load.nat_lt readDim)
      (mapError_eq_ok_iff.mp together)
  · cases together

theorem sound_of_load {document : Document} {form : NestedForm Float}
    (read : load document = .ok form) : form.Sound := by
  unfold load at read
  split at read
  · rcases bind_eq_ok_iff.mp read with ⟨dim, readDim, read⟩
    rcases bind_eq_ok_iff.mp read with ⟨arena, readTree, read⟩
    rcases bind_eq_ok_iff.mp read with ⟨checked, _, together⟩
    exact sound_of_ofParts readTree readDim together
  · rcases bind_eq_ok_iff.mp read with ⟨arena, readTree, read⟩
    rcases bind_eq_ok_iff.mp read with ⟨dim, readDim, read⟩
    rcases bind_eq_ok_iff.mp read with ⟨checked, _, read⟩
    split at read
    · cases read
    · exact sound_of_ofParts readTree readDim read
  · cases read

end NestedForm

mutual

theorem Arena.sound_of_obtained {arena : Arena Float} : arena.Obtained → arena.Sound
  | .accepted fits accepted => Arena.sound_of_ofNodes fits accepted
  | .loaded read => Arena.sound_of_load read
  | .taken obtained => (NestedForm.sound_of_obtained obtained).arena

theorem NestedForm.sound_of_obtained {form : NestedForm Float} : form.Obtained → form.Sound
  | .rows narrow built => NestedForm.sound_of_ofRows narrow built
  | .factored fits built => NestedForm.sound_of_factor fits built
  | .nested fits built => NestedForm.sound_of_factor fits built
  | .monomials narrow fits built => NestedForm.sound_of_factored narrow fits built
  | .wrapped obtained narrow accepted =>
      NestedForm.sound_of_ofArena? (Arena.sound_of_obtained obtained) narrow accepted
  | .loaded read => NestedForm.sound_of_load read

end

theorem exists_arena_eval [Scalar α] {arena : Arena α} {point : Array α}
    (tree : OneTree arena.nodes) (within : ∀ node ∈ arena.nodes, node.Within point.size) :
    ∃ value, arena.eval point = .ok value := by
  rcases exists_tabulated tree.descending within with ⟨values, passed, table⟩
  have inside : arena.root < values.size := by
    rw [table.size]
    exact tree.last_lt
  refine ⟨values[arena.root], ?_⟩
  rw [Arena.eval, passed]
  exact fetch_of_lt inside

theorem evalStrict_eq {π : Type} [Evaluable π α] (poly : π) (point : Array α) :
    evalStrict poly point =
      if point.size = Evaluable.dim poly then Evaluable.evalRaw poly point
      else .error (.wrongDimension (Evaluable.dim poly) point.size) := by
  unfold evalStrict checkLength
  split <;> rfl

/-- Wherever a form comes from, evaluation refuses exactly the points of another dimension, and else
never reads beyond the end of the point or of the values so far. -/
theorem strict_evaluation_safe :
    (∀ form : NestedForm Float, form.Obtained → form.cost = form.arena.cost ∧
      ∀ point : Array Float,
        (evalStrict form point = .error (.wrongDimension form.dim point.size) ↔
          point.size ≠ form.dim) ∧
        (point.size = form.dim → ∃ value, form.arena.eval point = .ok value ∧
          evalStrict form point = .ok value)) ∧
    ∀ (arena : Arena Float) dim checked,
      ((∃ fault, NestedForm.ofArena? arena dim checked = .error fault) ↔
        ∃ var ∈ arena.namedVariables, dim ≤ var) ∧
      ∀ fault, NestedForm.ofArena? arena dim checked = .error fault →
        ∃ var ∈ arena.namedVariables, (∀ other ∈ arena.namedVariables, other ≤ var) ∧
          fault = .variableBeyond var dim := by
  constructor
  · intro form obtained
    have sound := NestedForm.sound_of_obtained obtained
    refine ⟨sound.cost, ?_⟩
    intro point
    have evaluated := evalStrict_eq form point
    by_cases fits : point.size = form.dim
    · have within : ∀ node ∈ form.arena.nodes, node.Within point.size := by
        rw [fits]
        exact sound.within
      rcases exists_arena_eval sound.arena.tree within with ⟨value, computed⟩
      have result : evalStrict form point = .ok value := by
        rw [evaluated]
        exact (if_pos fits).trans computed
      refine ⟨iff_of_false ?_ (not_not.mpr fits), fun _ => ⟨value, computed, result⟩⟩
      rw [result]
      exact nofun
    · exact ⟨iff_of_true (evaluated.trans (if_neg fits)) fits, fun equal => absurd equal fits⟩
  · intro arena dim checked
    refine ⟨NestedForm.exists_fault_iff, ?_⟩
    intro fault refused
    have verdict := NestedForm.ofArena?_verdict arena dim checked
    rw [refused] at verdict
    cases verdict with
    | @beyond var named outside largest => exact ⟨var, named, largest, rfl⟩

theorem strict_evaluation_safe_three : ∃ form : NestedForm Float,
    (factorMonomials ⟨false, true⟩ 2 [⟨5, [2, 1]⟩, ⟨3, [1, 0]⟩, ⟨7, [0, 1]⟩]).outcome = .ok form ∧
      form.Obtained ∧ evalStrict form #[2] = .error (.wrongDimension 2 1) ∧
      (∃ value, form.arena.eval #[2, 3] = .ok value ∧ evalStrict form #[2, 3] = .ok value) ∧
      ∃ fault, NestedForm.ofArena? form.arena 1 true = .error fault := by
  have built : (factorMonomials ⟨false, true⟩ 2
      [⟨(5 : Float), [2, 1]⟩, ⟨3, [1, 0]⟩, ⟨7, [0, 1]⟩]).outcome =
        .ok ⟨⟨#[.leaf 5 [(1, 1)], .leaf 3 [], .factor 0 1 0 (some 1), .leaf 7 [(1, 1)],
          .factor 0 1 2 (some 3)]⟩, 2, ⟨4, 2⟩, false⟩ := by cbv
  have obtained := NestedForm.Obtained.monomials (by decide) (by decide) built
  have evaluated := (strict_evaluation_safe.1 _ obtained).2
  refine ⟨_, built, obtained, ((evaluated #[2]).1.mpr (by decide)), ((evaluated #[2, 3]).2 rfl), ?_⟩
  exact (strict_evaluation_safe.2 _ 1 true).1.mpr ⟨1, by decide, by decide⟩

end NestedPoly
