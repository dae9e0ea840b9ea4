import Mathlib
import NestedPoly.Proofs.ArenaPass
import NestedPoly.Proofs.Expansion
import NestedPoly.Proofs.Powers

namespace NestedPoly

section
variable {α : Type} {dim : Nat}

theorem mem_namedVariables_of_expand {nest : Nest α} {term : α × List (Nat × Nat)}
    (member : term ∈ nest.expand) {power : Nat × Nat} (listed : power ∈ term.2) :
    power.1 ∈ nest.namedVariables := by
  induction nest generalizing term power with
  | leaf coefficient powers =>
      cases List.mem_singleton.mp member
      exact List.mem_map.mpr ⟨power, listed, rfl⟩
  | scaled var exponent factored ih =>
      obtain ⟨inner, below, rfl⟩ := List.mem_map.mp member
      rw [Nest.namedVariables, List.mem_cons]
      rcases List.mem_cons.mp listed with rfl | deeper
      · exact .inl rfl
      · exact .inr (ih below deeper)
  | joined var exponent factored rest innerIh outerIh =>
      rw [Nest.namedVariables, List.mem_cons, List.mem_append]
      rcases List.mem_append.mp member with inside | outside
      · obtain ⟨inner, below, rfl⟩ := List.mem_map.mp inside
        rcases List.mem_cons.mp listed with rfl | deeper
        · exact .inl rfl
        · exact .inr (.inl (innerIh below deeper))
      · exact .inr (.inr (outerIh outside listed))

theorem namedVariables_lt {rule : Rule α dim} {monomials : List (Monomial α)} {nest : Nest α}
    (form : GreedyForm rule monomials nest) (uniform : ∀ m ∈ monomials, m.dim = dim) :
    ∀ var ∈ nest.namedVariables, var < dim := by
  rw [← within_listing_iff dim nest 0]
  intro node member
  have tidy := tidy_of_mem_listing form uniform 0 node member
  cases node with
  | leaf coefficient powers => exact fun power listed => (tidy.2 power listed).1
  | factor var power factored rest => exact tidy.1

end

instance (priority := low) exactScalar {R : Type} [CommSemiring R] : Scalar R where
  emptySum := 0

variable {R : Type} [CommSemiring R] {point : Array R} {dim : Nat}

def powersValue (point : Array R) (powers : List (Nat × Nat)) : R :=
  (powers.map fun power => point.getD power.1 0 ^ power.2).prod

theorem scaleByPowers_exact (start : R) {powers : List (Nat × Nat)}
    (named : ∀ power ∈ powers, power.1 < point.size) :
    scaleByPowers point start powers = .ok (start * powersValue point powers) := by
  induction powers generalizing start with
  | nil => simp [scaleByPowers, powersValue, pure, Except.pure]
  | cons power powers ih =>
      obtain ⟨below, others⟩ := List.forall_mem_cons.mp named
      rw [scaleByPowers_cons, fetch_of_lt below, Except.bind, ih _ others, power_eq_pow]
      simp [powersValue, mul_assoc, below]

theorem powersValue_eq {powers : List (Nat × Nat)} (named : ∀ power ∈ powers, power.1 < dim) :
    powersValue point powers =
      ∏ var ∈ Finset.range dim, point.getD var 0 ^ totalExponent powers var := by
  induction powers with
  | nil => simp [powersValue, totalExponent]
  | cons power powers ih =>
      obtain ⟨below, others⟩ := List.forall_mem_cons.mp named
      have single : ∏ var ∈ Finset.range dim,
          point.getD var 0 ^ (if power.1 = var then power.2 else 0) =
            point.getD power.1 0 ^ power.2 := by
        rw [Finset.prod_eq_single power.1]
        · rw [if_pos rfl]
        · intro var _ other
          rw [if_neg (Ne.symm other), pow_zero]
        · intro outside
          exact absurd (Finset.mem_range.mpr below) outside
      simp only [totalExponent_cons, pow_add, Finset.prod_mul_distrib]
      rw [single, ← ih others]
      rfl

def Monomial.exactValue (dim : Nat) (point : Array R) (m : Monomial R) : R :=
  m.coefficient * ∏ var ∈ Finset.range dim, point.getD var 0 ^ m.exponent var

theorem monomial_eval_exact {m : Monomial R} (fits : m.dim ≤ point.size) :
    m.eval point = .ok (m.exactValue m.dim point) := by
  have named : ∀ power ∈ m.powers, power.1 < m.dim := by
    intro power listed
    exact (List.getElem?_eq_some_iff.mp (mem_nonzeroPowers.mp listed).1).1
  have inside : ∀ power ∈ m.powers, power.1 < point.size := by
    intro power listed
    exact Nat.lt_of_lt_of_le (named power listed) fits
  rw [Monomial.eval, scaleByPowers_exact _ inside, powersValue_eq named]
  simp only [Monomial.powers, totalExponent_nonzeroPowers]
  rfl

theorem foldlM_eval_exact {monomials : List (Monomial R)} (start : R)
    (uniform : ∀ m ∈ monomials, m.dim = dim) (fits : point.size = dim) :
    monomials.foldlM (fun sum m => do return sum + (← m.eval point)) start =
      (.ok (start + (monomials.map (Monomial.exactValue dim point)).sum) : Except Fault R) := by
  induction monomials generalizing start with
  | nil => simp [pure, Except.pure]
  | cons m monomials ih =>
      obtain ⟨even, others⟩ := List.forall_mem_cons.mp uniform
      have value := monomial_eval_exact (Nat.le_of_eq (even.trans fits.symm))
      rw [even] at value
      rw [List.map_cons, List.sum_cons, ← add_assoc, ← ih _ others, List.foldlM_cons, value]
      rfl

theorem sum_factored (point : Array R) (var power : Nat) (terms : List (R × List (Nat × Nat))) :
    ((terms.map fun (coefficient, powers) => (coefficient, (var, power) :: powers)).map
        fun term => term.1 * powersValue point term.2).sum =
      (terms.map fun term => term.1 * powersValue point term.2).sum * point.getD var 0 ^ power := by
  rw [List.map_map, ← List.sum_map_mul_right]
  apply congrArg List.sum
  apply List.map_congr_left
  intro term _
  simp only [Function.comp_apply, powersValue, List.map_cons, List.prod_cons]
  ring

theorem nest_eval_exact {nest : Nest R} (named : ∀ var ∈ nest.namedVariables, var < point.size) :
    nest.eval point =
      .ok (nest.expand.map fun term => term.1 * powersValue point term.2).sum := by
  induction nest with
  | leaf coefficient powers =>
      rw [Nest.namedVariables, List.forall_mem_map] at named
      rw [Nest.eval, scaleByPowers_exact coefficient named]
      simp [Nest.expand]
  | scaled var power factored ih =>
      rw [Nest.namedVariables, List.forall_mem_cons] at named
      obtain ⟨below, inner⟩ := named
      have coordinate : point.getD var 0 = point[var] := by simp [below]
      rw [Nest.eval, ih inner, fetch_of_lt below, Nest.expand, sum_factored, coordinate,
        ← power_eq_pow]
      rfl
  | joined var power factored rest innerIh outerIh =>
      rw [Nest.namedVariables, List.forall_mem_cons, List.forall_mem_append] at named
      obtain ⟨below, inner, outer⟩ := named
      have coordinate : point.getD var 0 = point[var] := by simp [below]
      rw [Nest.eval, innerIh inner, outerIh outer, fetch_of_lt below, Nest.expand, List.map_append,
        List.sum_append, sum_factored, coordinate, ← power_eq_pow]
      rfl

theorem sum_expand_eq {nest : Nest R} (named : ∀ var ∈ nest.namedVariables, var < dim) :
    (nest.expand.map fun term => term.1 * powersValue point term.2).sum =
      ((nest.monomials dim).map (Monomial.exactValue dim point)).sum := by
  rw [Nest.monomials, List.map_map]
  apply congrArg List.sum
  apply List.map_congr_left
  intro term member
  have below : ∀ power ∈ term.2, power.1 < dim :=
    fun power listed => named power.1 (mem_namedVariables_of_expand member listed)
  rw [powersValue_eq below, Function.comp_apply, Monomial.exactValue]
  apply congrArg (term.1 * ·)
  apply Finset.prod_congr rfl
  intro var inside
  simp [Monomial.exponent, exponentVector, Finset.mem_range.mp inside]

section
variable {monomials : List (Monomial R)} (uniform : ∀ m ∈ monomials, m.dim = dim)
  (fits : point.size = dim)
include uniform fits

theorem eval_arena_exact {rule : Rule R dim} {nest : Nest R} (shape : GreedyForm rule monomials nest) :
    nest.arena.eval point = .ok (monomials.map (Monomial.exactValue dim point)).sum := by
  have named := namedVariables_lt shape uniform
  have inside : ∀ var ∈ nest.namedVariables, var < point.size := by
    rw [fits]
    exact named
  have terms := (monomials_greedyForm shape uniform).map (Monomial.exactValue dim point)
  calc nest.arena.eval point
    _ = nest.eval point := eval_arena inside
    _ = .ok (nest.expand.map fun term => term.1 * powersValue point term.2).sum :=
      nest_eval_exact inside
    _ = .ok ((nest.monomials dim).map (Monomial.exactValue dim point)).sum := by
      rw [sum_expand_eq named]
    _ = .ok (monomials.map (Monomial.exactValue dim point)).sum := by rw [terms.sum_eq]

theorem evalRaw_exact (degreeBounds : List Nat) (checked : Bool) :
    (SparsePoly.mk monomials dim degreeBounds checked).evalRaw point =
      .ok (monomials.map (Monomial.exactValue dim point)).sum := by
  have direct := foldlM_eval_exact 0 uniform fits
  rw [zero_add] at direct
  exact direct

end

/-- Over a commutative semiring the nested form and direct summation have one value. There is a nested
form of monomials that differ in their exponents, unless it would have too many nodes. -/
theorem nested_eval_eq_direct_sum (options : FactoringOptions) (monomials : List (Monomial R))
    (fits : point.size = dim) :
    (∀ form, (factorMonomials options dim monomials).outcome = .ok form →
      form.arena.eval point = .ok (monomials.map (Monomial.exactValue dim point)).sum ∧
      ∀ degreeBounds checked,
        (SparsePoly.mk monomials dim degreeBounds checked).evalRaw point =
          form.arena.eval point) ∧
    (monomials ≠ [] → (∀ m ∈ monomials, m.dim = dim) →
      (monomials.map Monomial.exponents).Nodup → (∀ m ∈ monomials, m.Fits) →
      weight monomials ≤ nodeLimit →
        ∃ form, (factorMonomials options dim monomials).outcome = .ok form) := by
  constructor
  · intro form built
    obtain ⟨-, uniform, nest, shape, -, rfl⟩ := greedyForm_of_outcome_eq_ok built
    have value := eval_arena_exact uniform fits shape
    refine ⟨value, ?_⟩
    intro degreeBounds checked
    exact (evalRaw_exact uniform fits degreeBounds checked).trans value.symm
  · intro present uniform distinct small room
    exact exists_outcome_eq_ok options present uniform distinct small room

theorem nested_eval_eq_direct_sum_three : ∃ form : NestedForm Int,
    (factorMonomials ⟨true, true⟩ 2 [⟨5, [2, 1]⟩, ⟨3, [1, 0]⟩, ⟨7, [0, 1]⟩]).outcome = .ok form ∧
      form.arena.eval #[2, 3] = .ok 87 ∧
      ∀ degreeBounds checked,
        (SparsePoly.mk [⟨5, [2, 1]⟩, ⟨3, [1, 0]⟩, ⟨7, [0, 1]⟩] 2 degreeBounds checked).evalRaw
          #[2, 3] = form.arena.eval #[2, 3] := by
  have value : ([⟨5, [2, 1]⟩, ⟨3, [1, 0]⟩, ⟨7, [0, 1]⟩].map
      (Monomial.exactValue 2 #[(2 : Int), 3])).sum = 87 := by decide
  obtain ⟨evaluated, built⟩ := nested_eval_eq_direct_sum ⟨true, true⟩
    [⟨5, [2, 1]⟩, ⟨3, [1, 0]⟩, ⟨7, [0, 1]⟩] (rfl : #[(2 : Int), 3].size = 2)
  obtain ⟨form, outcome⟩ := built (by decide) (by decide) (by decide) (by decide) (by decide)
  rw [← value]
  exact ⟨form, outcome, evaluated form outcome⟩

end NestedPoly
