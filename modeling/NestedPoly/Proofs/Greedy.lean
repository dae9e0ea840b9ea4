import Mathlib
import NestedPoly.Nest.Greedy

/-! The greedy rule, step by step.

`GreedyForm` says which tree belongs to which monomials, one constructor per kind of tree, so that
what holds of all greedy forms is shown by induction on it. What the rule looks at, sums and
smallest powers, does not depend on the order of the monomials. -/

namespace NestedPoly

variable {α : Type} {dim var : Nat} {rule : Rule α dim} {monomials : List (Monomial α)}

theorem sumOf_eq_sum (numbers : List Nat) : sumOf numbers = numbers.sum := rfl

theorem having_ne_nil (occurs : 0 < degreeIn monomials var) : having var monomials ≠ [] := by
  obtain ⟨m, member, positive⟩ := exists_exponent_pos monomials var occurs
  apply List.ne_nil_of_mem
  exact List.mem_filter.mpr ⟨member, by simpa using positive⟩

theorem exponent_pos_of_mem_having {m : Monomial α} (member : m ∈ having var monomials) :
    0 < m.exponent var := by
  simpa using (List.mem_filter.mp member).2

theorem exponent_eq_zero_of_mem_lacking {m : Monomial α} (member : m ∈ lacking var monomials) :
    m.exponent var = 0 := by
  simpa using (List.mem_filter.mp member).2

theorem commonPower_le {m : Monomial α} (member : m ∈ having var monomials) :
    commonPower var monomials ≤ m.exponent var := by
  apply List.min?_getD_le_of_mem
  exact List.mem_map.mpr ⟨m, member, rfl⟩

theorem commonPower_pos (occurs : 0 < degreeIn monomials var) : 0 < commonPower var monomials := by
  obtain ⟨m, member, exact⟩ := exists_exponent_eq_commonPower occurs
  rw [← exact]
  exact exponent_pos_of_mem_having member

theorem having_append_lacking_perm (var : Nat) (monomials : List (Monomial α)) :
    (having var monomials ++ lacking var monomials).Perm monomials := by
  have complement : lacking var monomials =
      monomials.filter fun m => !decide (0 < m.exponent var) := by
    apply List.filter_congr
    intro m _
    rw [Bool.eq_iff_iff]
    simp
  rw [complement]
  exact List.filter_append_perm _ _

theorem dim_quotient (power : Nat) (m : Monomial α) : (m.quotient var power).dim = m.dim := by
  simp [Monomial.quotient, Monomial.dim]

theorem exponent_quotient (power other : Nat) (m : Monomial α) :
    (m.quotient var power).exponent other = m.exponent other - if other = var then power else 0 := by
  rw [Monomial.exponent, Monomial.quotient, List.getD_eq_getElem?_getD, List.getElem?_modify,
    Monomial.exponent, List.getD_eq_getElem?_getD]
  by_cases same : other = var
  · cases m.exponents[other]? <;> simp [same]
  · cases m.exponents[other]? <;> simp [same, Ne.symm same]

theorem dim_of_mem_quotients (uniform : ∀ m ∈ monomials, m.dim = dim) :
    ∀ m ∈ quotients var monomials, m.dim = dim := by
  intro m member
  obtain ⟨original, inside, rfl⟩ := List.mem_map.mp member
  rw [dim_quotient]
  exact uniform original (List.mem_of_mem_filter inside)

theorem dim_of_mem_lacking (uniform : ∀ m ∈ monomials, m.dim = dim) :
    ∀ m ∈ lacking var monomials, m.dim = dim :=
  fun m member => uniform m (List.mem_of_mem_filter member)

theorem modify_add_modify_sub {exponents : List Nat} {power : Nat}
    (enough : power ≤ exponents.getD var 0) :
    (exponents.modify var (· - power)).modify var (· + power) = exponents := by
  induction exponents generalizing var with
  | nil => simp
  | cons e exponents ih =>
      cases var with
      | zero =>
          have enough : power ≤ e := by simpa using enough
          simp [Nat.sub_add_cancel enough]
      | succ var => simpa using ih (by simpa using enough)

theorem modify_sub_inj {first second : List Nat} {power : Nat}
    (enough : power ≤ first.getD var 0) (also : power ≤ second.getD var 0)
    (equal : first.modify var (· - power) = second.modify var (· - power)) : first = second := by
  rw [← modify_add_modify_sub enough, equal, modify_add_modify_sub also]

section
variable {others : List (Monomial α)}

theorem degreeIn_perm (same : monomials.Perm others) (var : Nat) :
    degreeIn monomials var = degreeIn others var := by
  rw [degreeIn, degreeIn, sumOf_eq_sum, sumOf_eq_sum]
  exact (same.map _).sum_eq

theorem choose_wrapped_perm (same : monomials.Perm others) (dim : Nat) :
    (Rule.wrapped α dim).choose monomials = (Rule.wrapped α dim).choose others := by
  have sums : degreeIn monomials = degreeIn others := funext (degreeIn_perm same)
  simp only [Rule.wrapped, sums]

theorem min?_perm {first second : List Nat} (same : first.Perm second) :
    first.min? = second.min? := by
  apply Option.ext
  intro least
  rw [List.min?_eq_some_iff, List.min?_eq_some_iff, same.mem_iff]
  simp only [same.mem_iff]

theorem commonPower_perm (same : monomials.Perm others) (var : Nat) :
    commonPower var monomials = commonPower var others := by
  have least := min?_perm ((same.filter (0 < ·.exponent var)).map (Monomial.exponent · var))
  rw [commonPower, commonPower, having, having, least]

theorem quotients_perm (same : monomials.Perm others) (var : Nat) :
    (quotients var monomials).Perm (quotients var others) := by
  rw [quotients, quotients, commonPower_perm same]
  exact (same.filter _).map _

theorem lacking_perm (same : monomials.Perm others) (var : Nat) :
    (lacking var monomials).Perm (lacking var others) :=
  same.filter _

end

theorem greedy_singleton (rule : Rule α dim) (m : Monomial α) :
    greedy rule [m] = some (.leaf m.coefficient m.powers) := by
  rw [greedy]

theorem greedy_stuck (several : ∀ m, monomials ≠ [m]) (stuck : rule.choose monomials = none) :
    greedy rule monomials = none := by
  rw [greedy]
  · split
    · rfl
    · simp_all
  · exact several

theorem greedy_leading (several : ∀ m, monomials ≠ [m])
    (leading : rule.choose monomials = some var) :
    greedy rule monomials = (greedy rule (quotients var monomials)).bind fun factored =>
      if (lacking var monomials).isEmpty then
        some (.scaled var (commonPower var monomials) factored)
      else (greedy rule (lacking var monomials)).map
        (.joined var (commonPower var monomials) factored) := by
  rw [greedy]
  · split
    · simp_all
    · rename_i found equation
      have : found = var := by simp_all
      subst this
      cases greedy rule (quotients found monomials) with
      | none => rfl
      | some factored =>
          cases greedy rule (lacking found monomials) <;> rfl
  · exact several

/-- The nested form of the monomials by a rule. -/
inductive GreedyForm (rule : Rule α dim) : List (Monomial α) → Nest α → Prop where
  | leaf (m : Monomial α) : GreedyForm rule [m] (.leaf m.coefficient m.powers)
  | scaled {monomials : List (Monomial α)} {var : Nat} {factored : Nest α}
      (several : ∀ m, monomials ≠ [m]) (leading : rule.choose monomials = some var)
      (whole : lacking var monomials = [])
      (inner : GreedyForm rule (quotients var monomials) factored) :
      GreedyForm rule monomials (.scaled var (commonPower var monomials) factored)
  | joined {monomials : List (Monomial α)} {var : Nat} {factored rest : Nest α}
      (several : ∀ m, monomials ≠ [m]) (leading : rule.choose monomials = some var)
      (divided : lacking var monomials ≠ [])
      (inner : GreedyForm rule (quotients var monomials) factored)
      (outer : GreedyForm rule (lacking var monomials) rest) :
      GreedyForm rule monomials (.joined var (commonPower var monomials) factored rest)

theorem greedyForm_of_greedy {nest : Nest α} (found : greedy rule monomials = some nest) :
    GreedyForm rule monomials nest := by
  induction monomials using greedy.induct rule generalizing nest with
  | case1 m =>
      rw [greedy_singleton] at found
      cases found
      exact GreedyForm.leaf m
  | case2 monomials several stuck =>
      rw [greedy_stuck several stuck] at found
      cases found
  | case3 monomials several var leading innerIh outerIh =>
      rw [greedy_leading several leading, Option.bind_eq_some_iff] at found
      obtain ⟨factored, inner, found⟩ := found
      split at found
      · rename_i whole
        cases found
        exact GreedyForm.scaled several leading (List.isEmpty_iff.mp whole) (innerIh inner)
      · rename_i divided
        obtain ⟨rest, outer, rfl⟩ := Option.map_eq_some_iff.mp found
        exact GreedyForm.joined several leading (by simpa using divided) (innerIh inner)
          (outerIh outer)

theorem length_sides (var : Nat) (monomials : List (Monomial α)) :
    (quotients var monomials).length + (lacking var monomials).length = monomials.length := by
  rw [quotients, List.length_map, ← List.length_append]
  exact (having_append_lacking_perm var monomials).length_eq

theorem countLeaves_greedyForm {nest : Nest α} (form : GreedyForm rule monomials nest) :
    nest.countLeaves = monomials.length := by
  induction form with
  | leaf m => rfl
  | @scaled monomials var factored several leading whole inner ih =>
      calc factored.countLeaves
        _ = (quotients var monomials).length + (lacking var monomials).length := by
          rw [ih, whole, List.length_nil, Nat.add_zero]
        _ = monomials.length := length_sides var monomials
  | @joined monomials var factored rest several leading divided inner outer innerIh outerIh =>
      calc factored.countLeaves + rest.countLeaves
        _ = (quotients var monomials).length + (lacking var monomials).length := by
          rw [innerIh, outerIh]
        _ = monomials.length := length_sides var monomials

/-- Exponents that differ on each side differ altogether, since a variable tells the sides apart. -/
theorem nodup_of_sides (inner : ((quotients var monomials).map Monomial.exponents).Nodup)
    (outer : ((lacking var monomials).map Monomial.exponents).Nodup) :
    (monomials.map Monomial.exponents).Nodup := by
  have parts := (having_append_lacking_perm var monomials).map Monomial.exponents
  rw [← parts.nodup_iff, List.map_append, List.nodup_append]
  refine ⟨?_, outer, ?_⟩
  · apply List.Nodup.of_map (List.modify · var (· - commonPower var monomials))
    rw [quotients, List.map_map] at inner
    rw [List.map_map]
    exact inner
  · intro exponents member others otherMember equal
    obtain ⟨m, present, rfl⟩ := List.mem_map.mp member
    obtain ⟨other, absent, rfl⟩ := List.mem_map.mp otherMember
    have positive := exponent_pos_of_mem_having present
    have zero := exponent_eq_zero_of_mem_lacking absent
    rw [Monomial.exponent, equal] at positive
    rw [Monomial.exponent] at zero
    omega

theorem nodup_of_greedyForm {nest : Nest α} (form : GreedyForm rule monomials nest) :
    (monomials.map Monomial.exponents).Nodup := by
  induction form with
  | leaf m => simp
  | scaled several leading whole inner ih => exact nodup_of_sides ih (by simp [whole])
  | joined several leading divided inner outer innerIh outerIh =>
      exact nodup_of_sides innerIh outerIh

theorem weight_append (first second : List (Monomial α)) :
    weight (first ++ second) = weight first + weight second := by
  simp [weight, sumOf_eq_sum]

theorem weight_perm {others : List (Monomial α)} (same : monomials.Perm others) :
    weight monomials = weight others :=
  (same.map _).sum_eq

theorem length_le_weight (monomials : List (Monomial α)) :
    monomials.length ≤ weight monomials := by
  induction monomials with
  | nil => simp
  | cons m rest ih =>
      simp only [weight, List.map_cons, sumOf_cons, List.length_cons] at ih ⊢
      omega

/-- A split takes a nonzero exponent away, and no monomial. -/
theorem weight_sides_lt (occurs : 0 < degreeIn monomials var) :
    weight (quotients var monomials) + weight (lacking var monomials) < weight monomials := by
  obtain ⟨m, member, exact⟩ := exists_exponent_eq_commonPower occurs
  have lighter := weight_quotient_lt var _ _ m member (commonPower_pos occurs) exact
  have total := weight_perm (having_append_lacking_perm var monomials)
  rw [weight_append] at total
  rw [quotients]
  omega

theorem countNodes_le_weight {nest : Nest α} (form : GreedyForm rule monomials nest) :
    nest.countNodes ≤ weight monomials := by
  induction form with
  | leaf m => exact length_le_weight [m]
  | scaled several leading whole inner ih =>
      have lighter := weight_sides_lt (rule.occurs leading)
      rw [Nest.countNodes]
      omega
  | joined several leading divided inner outer innerIh outerIh =>
      have lighter := weight_sides_lt (rule.occurs leading)
      rw [Nest.countNodes]
      omega

/-- The monomials, and twice their nonzero exponents. -/
def taskBudget (monomials : List (Monomial α)) : Nat := 2 * weight monomials - monomials.length

theorem taskBudget_pos (present : monomials ≠ []) : 0 < taskBudget monomials := by
  have := length_le_weight monomials
  have := List.length_pos_iff.mpr present
  rw [taskBudget]
  omega

theorem taskBudget_sides (occurs : 0 < degreeIn monomials var) :
    taskBudget (quotients var monomials) + taskBudget (lacking var monomials) + 2 ≤
      taskBudget monomials := by
  have lighter := weight_sides_lt occurs
  have lengths := length_sides var monomials
  have := length_le_weight (quotients var monomials)
  have := length_le_weight (lacking var monomials)
  rw [taskBudget, taskBudget, taskBudget]
  omega

end NestedPoly
