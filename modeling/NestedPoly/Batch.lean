import NestedPoly.Factoring

/-!
Many polynomials, or many points, at once.

Work on a batch is independent from entry to entry, so it may be spread over workers. That changes
no value. Only, what workers report on single entries is not seen, and of several points that are
refused workers may tell of another than the first, which it is here.
-/

namespace NestedPoly

def workerThreshold : Nat := 16

/-- Brings each polynomial into nested form. One fault does not keep the others from being done. -/
def factorBatch {α : Type} (options : FactoringOptions) (threshold : Nat)
    (polys : List (SparsePoly α)) : List Event × List (Except Fault (NestedForm α)) :=
  let parallel := threshold ≤ polys.length
  let reports := polys.map (SparsePoly.factor · options)
  let entryEvents := if parallel then [] else reports.flatMap Report.events
  (.factoringBatch polys.length parallel :: entryEvents, reports.map Report.outcome)

/-- The values at all points, or the fault of the first point that is refused. -/
def evalBatch {π α : Type} [Evaluable π α] (threshold : Nat) (poly : π)
    (points : List (Array α)) : Report (List α) :=
  ⟨[.evaluatingBatch points.length (threshold ≤ points.length)], points.mapM (evalStrict poly)⟩

end NestedPoly
