import Mathlib
import NestedPoly.Proofs.Greedy

/-! Sums of exponents that fit in 64 bits.

The work compares sums as 64 bits hold them. Division only makes sums less, so if they fit at the
start they fit in every branch, and the variable that is chosen is the one with the largest sum. -/

namespace NestedPoly

variable {α : Type} {dim var : Nat} {monomials : List (Monomial α)}

theorem eq_zero_of_leader_eq_none {sum : Nat → Nat} (none : leader dim sum = none)
    (below : var < dim) : sum var = 0 := by
  have inside : (Finset.range dim).Nonempty := ⟨var, Finset.mem_range.mpr below⟩
  obtain ⟨best, listed, largest⟩ := Finset.exists_max_image _ sum inside
  have refused := List.find?_eq_none.mp none best (List.mem_range.mpr (Finset.mem_range.mp listed))
  have above := largest var (Finset.mem_range.mpr below)
  simp only [decide_eq_true_eq, not_and] at refused
  by_contra positive
  apply refused (by omega)
  intro other small
  exact largest other (Finset.mem_range.mpr small)

def SumsFit (monomials : List (Monomial α)) : Prop :=
  ∀ var, degreeIn monomials var < UInt64.size

theorem degreeIn_filter_le (keep : Monomial α → Bool) (monomials : List (Monomial α)) (var : Nat) :
    degreeIn (monomials.filter keep) var ≤ degreeIn monomials var :=
  (List.filter_sublist.map _).sum_le_sum (fun _ _ => Nat.zero_le _)

theorem degreeIn_quotients_le (var other : Nat) (monomials : List (Monomial α)) :
    degreeIn (quotients var monomials) other ≤ degreeIn monomials other := by
  have lowered : degreeIn (quotients var monomials) other ≤
      degreeIn (having var monomials) other := by
    rw [quotients, degreeIn, List.map_map]
    apply List.sum_le_sum
    intro m _
    rw [Function.comp_apply, exponent_quotient]
    exact Nat.sub_le _ _
  exact Nat.le_trans lowered (degreeIn_filter_le _ monomials other)

theorem sumsFit_quotients (fit : SumsFit monomials) : SumsFit (quotients var monomials) :=
  fun other => Nat.lt_of_le_of_lt (degreeIn_quotients_le var other monomials) (fit other)

theorem sumsFit_lacking (fit : SumsFit monomials) : SumsFit (lacking var monomials) :=
  fun other => Nat.lt_of_le_of_lt (degreeIn_filter_le _ monomials other) (fit other)

theorem choose_wrapped_eq (fit : SumsFit monomials) :
    (Rule.wrapped α dim).choose monomials = (Rule.exact α dim).choose monomials := by
  have sums : (fun var => degreeIn monomials var % UInt64.size) = degreeIn monomials :=
    funext fun var => Nat.mod_eq_of_lt (fit var)
  simp only [Rule.wrapped, Rule.exact, sums]

/-- As long as sums fit, it makes no difference that they are taken in 64 bits. -/
theorem greedy_wrapped_eq (fit : SumsFit monomials) :
    greedy (Rule.wrapped α dim) monomials = greedy (Rule.exact α dim) monomials := by
  induction monomials using greedy.induct (Rule.exact α dim) with
  | case1 m => rw [greedy_singleton, greedy_singleton]
  | case2 monomials several stuck =>
      rw [greedy_stuck several stuck, greedy_stuck several ((choose_wrapped_eq fit).trans stuck)]
  | case3 monomials several var leading innerIh outerIh =>
      rw [greedy_leading several leading,
        greedy_leading several ((choose_wrapped_eq fit).trans leading),
        innerIh (sumsFit_quotients fit), outerIh (sumsFit_lacking fit)]

section
variable {m : Monomial α} (uniform : ∀ m ∈ monomials, m.dim = dim) (member : m ∈ monomials)
include uniform member

theorem exponents_of_stuck (stuck : (Rule.exact α dim).choose monomials = none) :
    m.exponents = List.replicate dim 0 := by
  rw [List.eq_replicate_iff]
  refine ⟨uniform m member, ?_⟩
  intro e inside
  obtain ⟨var, below, rfl⟩ := List.getElem_of_mem inside
  have inRange : var < dim := uniform m member ▸ below
  have total := eq_zero_of_leader_eq_none stuck inRange
  have part : m.exponent var ≤ degreeIn monomials var :=
    List.le_sum_of_mem (List.mem_map.mpr ⟨m, member, rfl⟩)
  rw [Monomial.exponent, List.getD_eq_getElem _ _ below] at part
  omega

theorem exponents_of_stuck_wrapped (fit : SumsFit monomials)
    (stuck : (Rule.wrapped α dim).choose monomials = none) : m.exponents = List.replicate dim 0 :=
  exponents_of_stuck uniform member ((choose_wrapped_eq fit).symm.trans stuck)

end

def Monomial.Fits (m : Monomial α) : Prop := ∀ exponent ∈ m.exponents, exponent < UInt32.size

instance (m : Monomial α) : Decidable m.Fits :=
  inferInstanceAs (Decidable (∀ exponent ∈ m.exponents, exponent < UInt32.size))

theorem Monomial.exponent_lt_of_fits {m : Monomial α} (fits : m.Fits) (var : Nat) :
    m.exponent var < UInt32.size := by
  rw [Monomial.exponent, List.getD_eq_getElem?_getD]
  cases entry : m.exponents[var]? with
  | none => exact Nat.two_pow_pos 32
  | some exponent => exact fits exponent (List.mem_of_getElem? entry)

theorem sum_lt_of_forall_lt {numbers : List Nat} (small : ∀ n ∈ numbers, n < UInt32.size)
    (short : numbers.length ≤ UInt32.size + 1) : sumOf numbers < UInt64.size := by
  have each : sumOf numbers ≤ numbers.length * (UInt32.size - 1) := by
    apply List.sum_le_card_nsmul
    intro n member
    exact Nat.le_sub_one_of_lt (small n member)
  have all := Nat.mul_le_mul_right (UInt32.size - 1) short
  have product : (UInt32.size + 1) * (UInt32.size - 1) < UInt64.size := by decide
  omega

theorem sumsFit_of_fits (fits : ∀ m ∈ monomials, m.Fits)
    (short : monomials.length ≤ UInt32.size + 1) : SumsFit monomials := by
  intro var
  apply sum_lt_of_forall_lt
  · intro exponent member
    obtain ⟨m, listed, rfl⟩ := List.mem_map.mp member
    exact Monomial.exponent_lt_of_fits (fits m listed) var
  · rwa [List.length_map]

end NestedPoly
