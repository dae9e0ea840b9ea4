import Mathlib
import NestedPoly.Batch
import NestedPoly.Proofs.Origin
import NestedPoly.Proofs.RowChecks

namespace NestedPoly

theorem mapM_eq_ok_of_forall₂ {ε σ τ : Type} {f : σ → Except ε τ} {items : List σ}
    {results : List τ} (each : List.Forall₂ (fun item result => f item = .ok result) items results) :
    items.mapM f = .ok results := by
  induction each with
  | nil => rfl
  | cons first _ ih =>
      rw [List.mapM_cons, first, ih]
      rfl

theorem mapM_eq_error_iff {ε σ τ : Type} {good : σ → Prop} {f : σ → Except ε τ}
    (succeeds : ∀ item, good item ↔ ∃ result, f item = .ok result) (items : List σ) (fault : ε) :
    items.mapM f = .error fault ↔
      ∃ index item, FirstFailing good items index item ∧ f item = .error fault := by
  have placed : items.mapM f = items.zipIdx.mapM (f ∘ Prod.fst) := by
    rw [← List.mapM_map, List.zipIdx_map_fst]
  rw [placed, mapM_zipIdx_eq_error_iff fun item _ => succeeds item]
  rfl

section
variable {π α : Type} [Evaluable π α] {poly : π} {threshold : Nat} {points : List (Array α)}

theorem evalBatch_eq_ok_iff {values : List α} :
    (evalBatch threshold poly points).outcome = .ok values ↔
      List.Forall₂ (fun point value => evalStrict poly point = .ok value) points values :=
  ⟨forall₂_of_mapM_eq_ok, mapM_eq_ok_of_forall₂⟩

/-- What workers may answer: the values at all points, or the fault of any point that is refused. -/
inductive WorkerAnswer (poly : π) (points : List (Array α)) : Except Fault (List α) → Prop where
  | values {values : List α}
      (each : List.Forall₂ (fun point value => evalStrict poly point = .ok value) points values) :
      WorkerAnswer poly points (.ok values)
  | refused {point : Array α} {fault : Fault} (member : point ∈ points)
      (refused : evalStrict poly point = .error fault) : WorkerAnswer poly points (.error fault)

theorem workerAnswer_evalBatch (threshold : Nat) (poly : π) (points : List (Array α)) :
    WorkerAnswer poly points (evalBatch threshold poly points).outcome := by
  cases answer : (evalBatch threshold poly points).outcome with
  | ok values => exact WorkerAnswer.values (evalBatch_eq_ok_iff.mp answer)
  | error fault =>
      obtain ⟨index, point, failing, refused⟩ :=
        (mapM_eq_error_iff (fun _ => Iff.rfl) points fault).mp answer
      exact WorkerAnswer.refused (List.mem_of_getElem? failing.1) refused

/-- Workers leave open which fault is told, but not whether there are values, nor which. -/
theorem workerAnswer_ok_iff {answer : Except Fault (List α)} {values : List α}
    (answered : WorkerAnswer poly points answer) :
    answer = .ok values ↔ (evalBatch threshold poly points).outcome = .ok values := by
  rw [evalBatch_eq_ok_iff]
  cases answered with
  | values each =>
      constructor
      · rintro ⟨⟩
        exact each
      · intro also
        have same := (mapM_eq_ok_of_forall₂ each).symm.trans (mapM_eq_ok_of_forall₂ also)
        rw [Except.ok.inj same]
  | @refused point fault member refused =>
      refine iff_of_false (by simp) fun each => ?_
      obtain ⟨i, inside, rfl⟩ := List.getElem_of_mem member
      have valued := each.get inside (each.length_eq ▸ inside)
      rw [List.get_eq_getElem, refused] at valued
      cases valued

end

section
variable {α : Type} [Scalar α] {form : NestedForm α} (sound : form.Sound)
  {threshold : Nat} {points : List (Array α)}
include sound

theorem evalStrict_eq_error_iff {point : Array α} {fault : Fault} :
    evalStrict form point = .error fault ↔
      point.size ≠ form.dim ∧ fault = .wrongDimension form.dim point.size := by
  rw [evalStrict_eq]
  by_cases fits : point.size = form.dim
  · have within : ∀ node ∈ form.arena.nodes, node.Within point.size := by
      rw [fits]
      exact sound.within
    obtain ⟨value, computed⟩ := exists_arena_eval sound.arena.tree within
    have result : Evaluable.evalRaw form point = .ok value := computed
    rw [if_pos (by exact fits), result]
    simp [fits]
  · rw [if_neg (by exact fits), Except.error.injEq, and_iff_right fits, eq_comm]
    rfl

theorem evalBatch_eq_error_iff {fault : Fault} :
    (evalBatch threshold form points).outcome = .error fault ↔
      ∃ index point, FirstFailing (·.size = form.dim) points index point ∧
        fault = .wrongDimension form.dim point.size := by
  have valued (point : Array α) :
      point.size = form.dim ↔ ∃ value, evalStrict form point = .ok value := by
    constructor
    · intro fits
      cases computed : evalStrict form point with
      | ok value => exact ⟨value, rfl⟩
      | error fault => exact absurd fits ((evalStrict_eq_error_iff sound).mp computed).1
    · rintro ⟨value, computed⟩
      by_contra wrong
      cases computed.symm.trans ((evalStrict_eq_error_iff sound).mpr ⟨wrong, rfl⟩)
  rw [evalBatch, mapM_eq_error_iff valued]
  constructor
  · rintro ⟨index, point, failing, refused⟩
    exact ⟨index, point, failing, ((evalStrict_eq_error_iff sound).mp refused).2⟩
  · rintro ⟨index, point, failing, rfl⟩
    exact ⟨index, point, failing, (evalStrict_eq_error_iff sound).mpr ⟨failing.2.1, rfl⟩⟩

end

section
variable {R : Type} [CommSemiring R] {options : FactoringOptions}

theorem evalStrict_nested {poly : SparsePoly R} {form : NestedForm R}
    (built : (poly.factor options).outcome = .ok form) (point : Array R) :
    evalStrict form point = evalStrict poly point := by
  obtain ⟨-, uniform, nest, shape, -, rfl⟩ := greedyForm_of_outcome_eq_ok built
  rw [evalStrict_eq, evalStrict_eq]
  change (if point.size = poly.dim then nest.arena.eval point else _) =
    if point.size = poly.dim then poly.evalRaw point else _
  by_cases fits : point.size = poly.dim
  · rw [if_pos fits, if_pos fits, eval_arena_exact uniform fits shape]
    exact (evalRaw_exact uniform fits poly.degreeBounds poly.checked).symm
  · rw [if_neg fits, if_neg fits]
    rfl

/-- Each entry of a batch comes of the polynomial at the same place. In exact arithmetic the two have
the same values at all points, or refuse the same first one, whatever is spread over workers. -/
theorem factorBatch_values {threshold i : Nat} {polys : List (SparsePoly R)} {form : NestedForm R}
    (entry : (factorBatch options threshold polys).2[i]? = some (.ok form)) :
    ∃ poly, polys[i]? = some poly ∧ ∀ first second points,
      (evalBatch first form points).outcome = (evalBatch second poly points).outcome := by
  simp only [factorBatch, List.map_map, List.getElem?_map, Option.map_eq_some_iff] at entry
  obtain ⟨poly, place, built⟩ := entry
  refine ⟨poly, place, fun first second points => ?_⟩
  rw [evalBatch, evalBatch]
  exact congrArg points.mapM (funext (evalStrict_nested built))

end

end NestedPoly
