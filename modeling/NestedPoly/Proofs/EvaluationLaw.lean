import Mathlib
import NestedPoly.Proofs.Definedness
import NestedPoly.Proofs.RoundTrip

namespace NestedPoly

variable {α : Type}

section
variable {π : Type} [Evaluable π α] {poly : π} {point : Array α}

/-- The laws of evaluation. A look at the point refuses the points of another dimension, for their
length, and no others. At all others there is a value, and the look changes nothing. -/
structure Lawful (poly : π) : Prop where
  refuses (point : Array α) (fault : Fault) : evalStrict poly point = .error fault ↔
    point.size ≠ Evaluable.dim poly ∧ fault = .wrongDimension (Evaluable.dim poly) point.size
  agrees (point : Array α) (fits : point.size = Evaluable.dim poly) :
    ∃ value, Evaluable.evalRaw poly point = .ok value ∧ evalStrict poly point = .ok value

theorem evalStrict_of_size_ne (wrong : point.size ≠ Evaluable.dim poly) :
    evalStrict poly point = .error (.wrongDimension (Evaluable.dim poly) point.size) := by
  rw [evalStrict_eq, if_neg wrong]

theorem evalStrict_of_size_eq (fits : point.size = Evaluable.dim poly) :
    evalStrict poly point = Evaluable.evalRaw poly point := by
  rw [evalStrict_eq, if_pos fits]

theorem lawful_of_valued (valued : ∀ point : Array α, point.size = Evaluable.dim poly →
    ∃ value, evalStrict poly point = .ok value) : Lawful poly := by
  constructor
  · intro point fault
    by_cases fits : point.size = Evaluable.dim poly
    · rcases valued point fits with ⟨value, computed⟩
      rw [computed]
      simp [fits]
    · rw [evalStrict_of_size_ne fits, Except.error.injEq, and_iff_right fits, eq_comm]
  · intro point fits
    rcases valued point fits with ⟨value, computed⟩
    exact ⟨value, (evalStrict_of_size_eq fits).symm.trans computed, computed⟩

end

namespace SparsePoly

inductive Built : SparsePoly α → Prop where
  | rows {coefficients : List α} {rows : List (List Int)} {options : BuildOptions}
      {poly : SparsePoly α} (made : ofRows coefficients rows options = .ok poly) : Built poly
  | monomials {dim : Nat} {monomials : List (Monomial α)} {options : BuildOptions}
      {poly : SparsePoly α} (made : ofMonomials dim monomials options = .ok poly) : Built poly

theorem dim_of_ofMonomials {dim : Nat} {monomials : List (Monomial α)} {options : BuildOptions}
    {poly : SparsePoly α} (made : ofMonomials dim monomials options = .ok poly) :
    ∀ m ∈ poly.monomials, m.dim = poly.dim := by
  rcases ofMonomials_eq_ok_iff.mp made with ⟨_, uniform, _, rfl⟩
  exact dim_of_mem_arrange options uniform

theorem dim_of_built {poly : SparsePoly α} (built : poly.Built) :
    ∀ m ∈ poly.monomials, m.dim = poly.dim := by
  cases built with
  | rows made => exact dim_of_ofMonomials (ofRows_eq_ok_iff.mp made).2.2
  | monomials made => exact dim_of_ofMonomials made

theorem occurring_lt_of_dim {dim : Nat} {monomials : List (Monomial α)}
    (uniform : ∀ m ∈ monomials, m.dim = dim) : ∀ var ∈ occurring monomials, var < dim := by
  intro var occurs
  rcases occurs with ⟨m, member, positive⟩
  rw [← uniform m member]
  by_contra beyond
  rw [Monomial.exponent, List.getD_eq_getElem?_getD,
    List.getElem?_eq_none (Nat.le_of_not_lt beyond)] at positive
  cases positive

section
variable [Scalar α] {poly : SparsePoly α} {point : Array α}

theorem reads_evalStrict (fits : point.size = poly.dim) :
    Reads point (occurring poly.monomials) (evalStrict poly point) := by
  have same : evalStrict poly point = poly.evalRaw point := evalStrict_of_size_eq fits
  rw [same]
  exact reads_sparse poly point

theorem pastEnd_of_occurring {var : Nat} (occurs : var ∈ occurring poly.monomials)
    (beyond : poly.dim ≤ var) (fits : point.size = poly.dim) :
    ∃ other ∈ occurring poly.monomials, poly.dim ≤ other ∧
      evalStrict poly point = .error (.pastEnd poly.dim other) := by
  have reads := reads_evalStrict fits
  generalize evalStrict poly point = outcome at reads
  cases reads with
  | result within => exact absurd (fits ▸ within var occurs) (Nat.not_lt.mpr beyond)
  | @beyond other named outside =>
      rw [fits] at outside ⊢
      exact ⟨other, named, outside, rfl⟩

theorem lawful_iff : Lawful poly ↔ ∀ var ∈ occurring poly.monomials, var < poly.dim := by
  constructor
  · intro lawful var occurs
    by_contra beyond
    have size : (Array.replicate poly.dim (Scalar.emptySum : α)).size = poly.dim :=
      Array.size_replicate
    rcases pastEnd_of_occurring occurs (Nat.le_of_not_lt beyond) size with ⟨other, _, _, failed⟩
    rcases lawful.agrees _ size with ⟨value, _, computed⟩
    rw [failed] at computed
    cases computed
  · intro within
    apply lawful_of_valued
    intro point fits
    have reads := reads_evalStrict fits
    generalize evalStrict poly point = outcome at reads ⊢
    cases reads with
    | result => exact ⟨_, rfl⟩
    | beyond named outside =>
        have inside := within _ named
        exact absurd (Nat.lt_of_lt_of_eq inside fits.symm) (Nat.not_lt.mpr outside)

end

theorem exists_load_iff {poly : SparsePoly Float}
    (finite : ∀ m ∈ poly.monomials, m.coefficient.isFinite) :
    (∃ document, load document = .ok poly) ↔ poly.Fits := by
  constructor
  · intro readable
    rcases readable with ⟨document, read⟩
    exact fits_of_load read
  · intro fits
    exact ⟨poly.save, load_save fits finite⟩

/-- A polynomial that is built has one exponent per variable, and all of which this is true obey the
laws. In general exactly those obey of which no variable lies beyond the dimension, and the others have
no value at any point of the right length. Such others can be read from documents, which give all
polynomials whose numbers fit in their words. -/
theorem lawful_by_origin (poly : SparsePoly Float) :
    (poly.Built → ∀ m ∈ poly.monomials, m.dim = poly.dim) ∧
    ((∀ m ∈ poly.monomials, m.dim = poly.dim) → Lawful poly) ∧
    (∀ point : Array Float, point.size ≠ poly.dim →
      evalStrict poly point = .error (.wrongDimension poly.dim point.size)) ∧
    (Lawful poly ↔ ∀ var ∈ occurring poly.monomials, var < poly.dim) ∧
    (¬ Lawful poly → ∀ point : Array Float, point.size = poly.dim →
      ∃ var ∈ occurring poly.monomials, poly.dim ≤ var ∧
        evalStrict poly point = .error (.pastEnd poly.dim var)) ∧
    ((∀ m ∈ poly.monomials, m.coefficient.isFinite) →
      ((∃ document, load document = .ok poly) ↔ poly.Fits)) := by
  refine ⟨dim_of_built, ?_, fun _ wrong => evalStrict_of_size_ne wrong, lawful_iff, ?_,
    exists_load_iff⟩
  · intro uniform
    exact lawful_iff.mpr (occurring_lt_of_dim uniform)
  · intro unlawful point fits
    rw [lawful_iff] at unlawful
    push Not at unlawful
    rcases unlawful with ⟨var, occurs, beyond⟩
    exact pastEnd_of_occurring occurs beyond fits

theorem lawful_by_origin_three :
    (∃ poly : SparsePoly Float, ofRows [5, 3] [[2, 1], [0, 1]] .strict = .ok poly ∧ Lawful poly ∧
      evalStrict poly #[2] = .error (.wrongDimension poly.dim 1)) ∧
    ∃ poly : SparsePoly Float, poly = ⟨[⟨1, [0, 1]⟩], 1, [0], true⟩ ∧
      (∃ document, load document = .ok poly) ∧ ¬ Lawful poly ∧
      ∃ var ∈ occurring poly.monomials, 1 ≤ var ∧
        evalStrict poly #[2] = .error (.pastEnd 1 var) := by
  constructor
  · have made : ofRows [(5 : Float), 3] [[2, 1], [0, 1]] .strict =
        .ok ⟨[⟨3, [0, 1]⟩, ⟨5, [2, 1]⟩], 2, [2, 1], true⟩ := by cbv
    have origin := lawful_by_origin ⟨[⟨3, [0, 1]⟩, ⟨5, [2, 1]⟩], 2, [2, 1], true⟩
    exact ⟨_, made, origin.2.1 (origin.1 (.rows made)), origin.2.2.1 #[2] (by decide)⟩
  · have origin := lawful_by_origin ⟨[⟨1, [0, 1]⟩], 1, [0], true⟩
    have occurs : 1 ∈ occurring [(⟨1, [0, 1]⟩ : Monomial Float)] :=
      ⟨_, List.mem_cons_self, Nat.one_pos⟩
    have unlawful : ¬ Lawful (⟨[⟨1, [0, 1]⟩], 1, [0], true⟩ : SparsePoly Float) :=
      fun lawful => Nat.lt_irrefl 1 (origin.2.2.2.1.mp lawful 1 occurs)
    have read := (origin.2.2.2.2.2 (by decide)).mpr ⟨by decide, by decide, by decide⟩
    exact ⟨_, rfl, read, unlawful, origin.2.2.2.2.1 unlawful #[2] rfl⟩

/-- A document that gives a variable beyond the dimension. No check keeps the polynomial from reading
past the end of a point of the right length. -/
theorem loaded_reads_past_end : ∃ poly : SparsePoly Float,
    load (.record [
      ("monomials", .list [
        .record [("coefficient", .int 1), ("exponents", .list [.int 0, .int 1])]]),
      ("dim", .int 1), ("max_exponents", .list [.int 0]), ("validate", .bool true)]) = .ok poly ∧
    poly.dim = 1 ∧ (∃ m ∈ poly.monomials, m.dim ≠ poly.dim) ∧
    evalStrict poly #[2] = .error (.pastEnd 1 1) ∧ ¬ Lawful poly := by
  refine ⟨⟨[⟨Float.ofInt 1, [0, 1]⟩], 1, [0], true⟩, rfl, rfl, ?_, rfl, ?_⟩
  · exact ⟨_, List.mem_cons_self, by decide⟩
  · intro lawful
    exact ((lawful.refuses #[2] (.pastEnd 1 1)).mp rfl).1 rfl

end SparsePoly

end NestedPoly
