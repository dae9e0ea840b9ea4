import NestedPoly.Nest

/-!
The greedy nested form by recursion.

Here powers are taken out of lists of monomials, without tasks, codes or positions. The recursion ends
because a factored branch has fewer nonzero exponents than the branch it comes from, and a rest has
fewer monomials. For that it is enough that the variable taken out occurs at all, so a rule for which
one it is comes as a parameter.
-/

namespace NestedPoly

variable {α : Type} {dim : Nat}

def degreeIn (monomials : List (Monomial α)) (var : Nat) : Nat :=
  sumOf (monomials.map (Monomial.exponent · var))

def leader (dim : Nat) (sum : Nat → Nat) : Option Nat :=
  (List.range dim).find? fun var => 0 < sum var ∧ ∀ other < dim, sum other ≤ sum var

theorem leader_lt {sum : Nat → Nat} {var : Nat} (found : leader dim sum = some var) : var < dim := by
  simpa using List.mem_of_find?_eq_some found

theorem leader_pos {sum : Nat → Nat} {var : Nat} (found : leader dim sum = some var) :
    0 < sum var := by
  have := List.find?_some found
  simp_all

/-- How the variable is chosen that is taken out of several monomials: it is one that occurs. -/
structure Rule (α : Type) (dim : Nat) where
  choose : List (Monomial α) → Option Nat
  below : ∀ {monomials : List (Monomial α)} {var : Nat}, choose monomials = some var → var < dim
  occurs : ∀ {monomials : List (Monomial α)} {var : Nat},
    choose monomials = some var → 0 < degreeIn monomials var

/-- The sums of exponents are compared. -/
def Rule.exact (α : Type) (dim : Nat) : Rule α dim where
  choose monomials := leader dim (degreeIn monomials)
  below := leader_lt
  occurs := leader_pos

/-- The sums of exponents are compared as 64 bits hold them. -/
def Rule.wrapped (α : Type) (dim : Nat) : Rule α dim where
  choose monomials := leader dim fun var => degreeIn monomials var % UInt64.size
  below := leader_lt
  occurs found := Nat.lt_of_lt_of_le (leader_pos found) (Nat.mod_le _ _)

def having (var : Nat) (monomials : List (Monomial α)) : List (Monomial α) :=
  monomials.filter (0 < ·.exponent var)

def lacking (var : Nat) (monomials : List (Monomial α)) : List (Monomial α) :=
  monomials.filter (·.exponent var = 0)

def commonPower (var : Nat) (monomials : List (Monomial α)) : Nat :=
  ((having var monomials).map (Monomial.exponent · var)).min?.getD 1

def Monomial.quotient (var power : Nat) (m : Monomial α) : Monomial α :=
  { m with exponents := m.exponents.modify var (· - power) }

def quotients (var : Nat) (monomials : List (Monomial α)) : List (Monomial α) :=
  (having var monomials).map (Monomial.quotient var (commonPower var monomials))

def Monomial.support (m : Monomial α) : Nat := m.exponents.countP (0 < ·)

/-- The monomials and their nonzero exponents, counted together. -/
def weight (monomials : List (Monomial α)) : Nat :=
  sumOf (monomials.map fun m => 1 + m.support)

theorem support_modify_le (exponents : List Nat) (var power : Nat) :
    (exponents.modify var (· - power)).countP (0 < ·) ≤ exponents.countP (0 < ·) := by
  induction exponents generalizing var with
  | nil => simp
  | cons e rest ih => cases var <;> grind [List.modify_zero_cons, List.modify_succ_cons]

theorem support_modify_lt (exponents : List Nat) (var power : Nat) (present : 0 < power)
    (exact : exponents.getD var 0 = power) :
    (exponents.modify var (· - power)).countP (0 < ·) < exponents.countP (0 < ·) := by
  induction exponents generalizing var with
  | nil => simp_all
  | cons e rest ih => cases var <;> grind [List.modify_zero_cons, List.modify_succ_cons]

theorem support_quotient_le (var power : Nat) (m : Monomial α) :
    (m.quotient var power).support ≤ m.support :=
  support_modify_le m.exponents var power

theorem support_quotient_lt (var power : Nat) (m : Monomial α) (present : 0 < power)
    (exact : m.exponent var = power) : (m.quotient var power).support < m.support :=
  support_modify_lt m.exponents var power present exact

theorem weight_filter_le (keep : Monomial α → Bool) (monomials : List (Monomial α)) :
    weight (monomials.filter keep) ≤ weight monomials := by
  induction monomials with
  | nil => simp
  | cons m rest ih =>
    by_cases kept : keep m <;> simp_all [weight]
    omega

theorem weight_filter_lt (keep : Monomial α → Bool) (monomials : List (Monomial α))
    (m : Monomial α) (member : m ∈ monomials) (dropped : keep m = false) :
    weight (monomials.filter keep) < weight monomials := by
  induction monomials with
  | nil => simp at member
  | cons first rest ih =>
    have tail := weight_filter_le keep rest
    rcases List.mem_cons.1 member with rfl | member
    · simp_all [weight]
      omega
    · have := ih member
      by_cases kept : keep first <;> simp_all [weight]
      omega

theorem weight_quotient_le (var power : Nat) (monomials : List (Monomial α)) :
    weight (monomials.map (Monomial.quotient var power)) ≤ weight monomials := by
  induction monomials with
  | nil => simp
  | cons m rest ih =>
    have := support_quotient_le var power m
    simp_all [weight]
    omega

theorem weight_quotient_lt (var power : Nat) (monomials : List (Monomial α)) (m : Monomial α)
    (member : m ∈ monomials) (present : 0 < power) (exact : m.exponent var = power) :
    weight (monomials.map (Monomial.quotient var power)) < weight monomials := by
  induction monomials with
  | nil => simp at member
  | cons first rest ih =>
    have tail := weight_quotient_le var power rest
    rcases List.mem_cons.1 member with rfl | member
    · have := support_quotient_lt var power m present exact
      simp_all [weight]
      omega
    · have := ih member
      have := support_quotient_le var power first
      simp_all [weight]
      omega

theorem exists_exponent_pos (monomials : List (Monomial α)) (var : Nat)
    (occurs : 0 < degreeIn monomials var) : ∃ m ∈ monomials, 0 < m.exponent var := by
  induction monomials with
  | nil => simp [degreeIn] at occurs
  | cons m rest ih =>
    by_cases first : 0 < m.exponent var
    · exact ⟨m, by simp, first⟩
    · obtain ⟨other, member, positive⟩ := ih (by simp_all [degreeIn])
      exact ⟨other, by simp [member], positive⟩

theorem weight_lacking_lt {var : Nat} {monomials : List (Monomial α)}
    (occurs : 0 < degreeIn monomials var) : weight (lacking var monomials) < weight monomials := by
  obtain ⟨m, member, positive⟩ := exists_exponent_pos monomials var occurs
  exact weight_filter_lt _ monomials m member (by simp; omega)

theorem exists_exponent_eq_commonPower {var : Nat} {monomials : List (Monomial α)}
    (occurs : 0 < degreeIn monomials var) :
    ∃ m ∈ having var monomials, m.exponent var = commonPower var monomials := by
  obtain ⟨m, member, positive⟩ := exists_exponent_pos monomials var occurs
  have inside : m ∈ having var monomials := by simp [having, member, positive]
  obtain ⟨least, found⟩ : ∃ least,
      ((having var monomials).map (Monomial.exponent · var)).min? = some least := by
    cases found : ((having var monomials).map (Monomial.exponent · var)).min? with
    | some least => exact ⟨least, rfl⟩
    | none => simp_all
  have := List.min?_mem found
  simp_all [commonPower]

theorem weight_quotients_lt {var : Nat} {monomials : List (Monomial α)}
    (occurs : 0 < degreeIn monomials var) :
    weight (quotients var monomials) < weight monomials := by
  obtain ⟨m, member, exact⟩ := exists_exponent_eq_commonPower occurs
  have positive : 0 < m.exponent var := by simpa using (List.mem_filter.1 member).2
  exact Nat.lt_of_lt_of_le
    (weight_quotient_lt var _ _ m member (exact ▸ positive) exact)
    (weight_filter_le _ monomials)

/-- The nested form of a branch. There is none for a branch of several monomials in which no variable
is found. -/
def greedy (rule : Rule α dim) (monomials : List (Monomial α)) : Option (Nest α) :=
  match monomials with
  | [m] => some (.leaf m.coefficient m.powers)
  | monomials =>
    match _ : rule.choose monomials with
    | none => none
    | some var => do
      let power := commonPower var monomials
      let factored ← greedy rule (quotients var monomials)
      if (lacking var monomials).isEmpty then return .scaled var power factored
      else return .joined var power factored (← greedy rule (lacking var monomials))
termination_by weight monomials
decreasing_by
  · exact weight_quotients_lt (rule.occurs (by assumption))
  · exact weight_lacking_lt (rule.occurs (by assumption))

end NestedPoly
