import Mathlib
import NestedPoly.Proofs.Outcome

namespace NestedPoly

variable {α : Type} {dim var : Nat} {rule : Rule α dim} {monomials : List (Monomial α)}
  {nest : Nest α}

theorem mem_nonzeroPowers {exponents : List Nat} {power : Nat × Nat} :
    power ∈ nonzeroPowers exponents ↔ exponents[power.1]? = some power.2 ∧ 0 < power.2 := by
  obtain ⟨var, exponent⟩ := power
  simp only [nonzeroPowers, List.mem_filterMap, Prod.exists, List.mem_zipIdx_iff_getElem?]
  constructor
  · rintro ⟨value, place, listed, kept⟩
    split at kept
    · cases kept
      exact ⟨listed, ‹_›⟩
    · cases kept
  · rintro ⟨listed, positive⟩
    exact ⟨exponent, var, listed, if_pos positive⟩

theorem pairwise_nonzeroPowers (exponents : List Nat) :
    (nonzeroPowers exponents).Pairwise (·.1 < ·.1) := by
  rw [nonzeroPowers, List.pairwise_filterMap]
  have ascending : (exponents.zipIdx).Pairwise (·.2 < ·.2) := by
    rw [← List.pairwise_map (f := Prod.snd) (R := (· < ·)), List.zipIdx_map_snd]
    exact List.pairwise_lt_range'
  apply ascending.imp
  intro first second less power kept other alsoKept
  dsimp only at kept alsoKept
  rw [Option.ite_none_right_eq_some] at kept alsoKept
  obtain ⟨-, equal⟩ := kept
  obtain ⟨-, alsoEqual⟩ := alsoKept
  cases equal
  cases alsoEqual
  exact less

theorem totalExponent_cons (power : Nat × Nat) (powers : List (Nat × Nat)) (var : Nat) :
    totalExponent (power :: powers) var =
      (if power.1 = var then power.2 else 0) + totalExponent powers var := by
  obtain ⟨other, exponent⟩ := power
  by_cases same : other = var
  · simp [totalExponent, same]
  · simp [totalExponent, same]

theorem totalExponent_zipIdx (exponents : List Nat) (place var : Nat) :
    totalExponent ((exponents.zipIdx place).filterMap fun (exponent, var) =>
        if 0 < exponent then some (var, exponent) else none) var =
      if place ≤ var then exponents.getD (var - place) 0 else 0 := by
  induction exponents generalizing place with
  | nil => simp [totalExponent]
  | cons exponent exponents ih =>
      have step : (if place = var then exponent else 0) +
          (if place + 1 ≤ var then exponents.getD (var - (place + 1)) 0 else 0) =
            if place ≤ var then (exponent :: exponents).getD (var - place) 0 else 0 := by
        rcases Nat.lt_trichotomy place var with less | rfl | more
        · obtain ⟨rest, rfl⟩ := Nat.exists_eq_add_of_le less
          have next : place + 1 + rest - place = rest + 1 := by omega
          have other : place ≠ place + 1 + rest := by omega
          simp [next, other, Nat.le_of_lt less]
        · simp
        · simp [Nat.ne_of_gt more, Nat.not_le_of_lt more, Nat.not_le_of_lt (Nat.lt_succ_of_lt more)]
      rw [List.zipIdx_cons, List.filterMap_cons, ← step]
      by_cases positive : 0 < exponent
      · simp only [positive, if_true]
        rw [totalExponent_cons, ih]
      · have zero : exponent = 0 := by omega
        simp only [zero, Nat.lt_irrefl, if_false, ite_self, Nat.zero_add]
        exact ih (place + 1)

theorem totalExponent_nonzeroPowers (exponents : List Nat) (var : Nat) :
    totalExponent (nonzeroPowers exponents) var = exponents.getD var 0 := by
  rw [nonzeroPowers, totalExponent_zipIdx exponents 0 var, if_pos (Nat.zero_le var), Nat.sub_zero]

theorem exponentVector_nonzeroPowers (exponents : List Nat) :
    exponentVector exponents.length (nonzeroPowers exponents) = exponents := by
  apply List.ext_getElem
  · simp [exponentVector]
  · intro var below alsoBelow
    simp [exponentVector, totalExponent_nonzeroPowers, alsoBelow]

theorem exponentVector_cons (dim : Nat) (power : Nat × Nat) (powers : List (Nat × Nat)) :
    exponentVector dim (power :: powers) =
      (exponentVector dim powers).modify power.1 (· + power.2) := by
  apply List.ext_getElem
  · simp [exponentVector]
  · intro var below alsoBelow
    simp only [exponentVector, List.getElem_map, List.getElem_range, List.getElem_modify,
      totalExponent_cons]
    split
    · omega
    · omega

def Monomial.times (var power : Nat) (m : Monomial α) : Monomial α :=
  { m with exponents := m.exponents.modify var (· + power) }

theorem times_quotient {power : Nat} {m : Monomial α} (enough : power ≤ m.exponent var) :
    (m.quotient var power).times var power = m := by
  rw [Monomial.times, Monomial.quotient, modify_add_modify_sub enough]

theorem map_times_quotients (var : Nat) (monomials : List (Monomial α)) :
    (quotients var monomials).map (Monomial.times var (commonPower var monomials)) =
      having var monomials := by
  rw [quotients, List.map_map]
  conv_rhs => rw [← List.map_id (having var monomials)]
  apply List.map_congr_left
  intro m member
  exact times_quotient (commonPower_le member)

theorem monomials_factored (dim var power : Nat) (terms : List (α × List (Nat × Nat))) :
    (terms.map fun (coefficient, powers) => (coefficient, (var, power) :: powers)).map
        (fun (coefficient, powers) => ⟨coefficient, exponentVector dim powers⟩) =
      (terms.map fun (coefficient, powers) => (⟨coefficient, exponentVector dim powers⟩ :
        Monomial α)).map (Monomial.times var power) := by
  rw [List.map_map, List.map_map]
  apply List.map_congr_left
  intro term _
  simp only [Function.comp_apply, Monomial.times, exponentVector_cons]

theorem monomials_scaled (dim var power : Nat) (factored : Nest α) :
    (Nest.scaled var power factored).monomials dim =
      (factored.monomials dim).map (Monomial.times var power) :=
  monomials_factored dim var power factored.expand

theorem monomials_joined (dim var power : Nat) (factored rest : Nest α) :
    (Nest.joined var power factored rest).monomials dim =
      (factored.monomials dim).map (Monomial.times var power) ++ rest.monomials dim := by
  rw [Nest.monomials, Nest.expand, List.map_append, monomials_factored]
  rfl

theorem monomials_greedyForm (form : GreedyForm rule monomials nest)
    (uniform : ∀ m ∈ monomials, m.dim = dim) : (nest.monomials dim).Perm monomials := by
  induction form with
  | leaf m =>
      have exponents := exponentVector_nonzeroPowers m.exponents
      rw [← Monomial.dim, uniform m (List.mem_singleton.mpr rfl)] at exponents
      simp only [Nest.monomials, Nest.expand, List.map_cons, List.map_nil, Monomial.powers,
        exponents]
      rfl
  | @scaled monomials var factored several leading whole inner ih =>
      have inside := (ih (dim_of_mem_quotients uniform)).map
        (Monomial.times var (commonPower var monomials))
      have sides := having_append_lacking_perm var monomials
      rw [map_times_quotients] at inside
      rw [whole, List.append_nil] at sides
      rw [monomials_scaled]
      exact inside.trans sides
  | @joined monomials var factored rest several leading divided inner outer innerIh outerIh =>
      have inside := (innerIh (dim_of_mem_quotients uniform)).map
        (Monomial.times var (commonPower var monomials))
      have outside := outerIh (dim_of_mem_lacking uniform)
      rw [map_times_quotients] at inside
      rw [monomials_joined]
      exact (inside.append outside).trans (having_append_lacking_perm var monomials)

/-- The node takes out a power of one of the variables, or lists the powers that are left, each
variable once and in ascending order. -/
def Node.Tidy (dim : Nat) : Node α → Prop
  | .leaf _ powers => powers.Pairwise (·.1 < ·.1) ∧ ∀ power ∈ powers, power.1 < dim ∧ 1 ≤ power.2
  | .factor var power _ _ => var < dim ∧ 1 ≤ power

theorem tidy_of_mem_listing (form : GreedyForm rule monomials nest)
    (uniform : ∀ m ∈ monomials, m.dim = dim) (offset : Nat) :
    ∀ node ∈ nest.listing offset, node.Tidy dim := by
  induction form generalizing offset with
  | leaf m =>
      intro node member
      cases List.mem_singleton.mp member
      refine ⟨pairwise_nonzeroPowers m.exponents, ?_⟩
      intro power listed
      obtain ⟨place, positive⟩ := mem_nonzeroPowers.mp listed
      refine ⟨?_, positive⟩
      rw [← uniform m (List.mem_singleton.mpr rfl), Monomial.dim]
      exact (List.getElem?_eq_some_iff.mp place).1
  | @scaled monomials var factored several leading whole inner ih =>
      intro node member
      rw [Nest.listing, List.mem_append, List.mem_singleton] at member
      rcases member with inside | rfl
      · exact ih (dim_of_mem_quotients uniform) offset node inside
      · exact ⟨rule.below leading, commonPower_pos (rule.occurs leading)⟩
  | @joined monomials var factored rest several leading divided inner outer innerIh outerIh =>
      intro node member
      rw [Nest.listing, List.mem_append, List.mem_append, List.mem_singleton] at member
      rcases member with (inside | outside) | rfl
      · exact innerIh (dim_of_mem_quotients uniform) offset node inside
      · exact outerIh (dim_of_mem_lacking uniform) _ node outside
      · exact ⟨rule.below leading, commonPower_pos (rule.occurs leading)⟩

/-- Whatever form comes out expands to the monomials that were put in, and its nodes are tidy. -/
theorem factored_form_expands {options : FactoringOptions} {form : NestedForm α}
    (built : (factorMonomials options dim monomials).outcome = .ok form) :
    (∃ nest, form.arena.nest? = some nest ∧ (nest.monomials dim).Perm monomials) ∧
      ∀ node ∈ form.arena.nodes, node.Tidy dim := by
  obtain ⟨-, uniform, nest, shape, -, rfl⟩ := greedyForm_of_outcome_eq_ok built
  constructor
  · exact ⟨nest, nest.nest?_arena, monomials_greedyForm shape uniform⟩
  · intro node member
    apply tidy_of_mem_listing shape uniform 0
    simpa [NestedForm.ofArena, Nest.arena] using member

theorem factored_form_expands_three : ∃ form : NestedForm Int,
    (factorMonomials ⟨true, true⟩ 2 [⟨5, [2, 1]⟩, ⟨3, [1, 0]⟩, ⟨7, [0, 1]⟩]).outcome = .ok form ∧
      (∃ nest, form.arena.nest? = some nest ∧
        (nest.monomials 2).Perm [⟨5, [2, 1]⟩, ⟨3, [1, 0]⟩, ⟨7, [0, 1]⟩]) ∧
      ∀ node ∈ form.arena.nodes, node.Tidy 2 := by
  have built : (factorMonomials ⟨true, true⟩ 2
      [⟨(5 : Int), [2, 1]⟩, ⟨3, [1, 0]⟩, ⟨7, [0, 1]⟩]).outcome =
        .ok ⟨⟨#[.leaf 5 [(1, 1)], .leaf 3 [], .factor 0 1 0 (some 1), .leaf 7 [(1, 1)],
          .factor 0 1 2 (some 3)]⟩, 2, ⟨4, 2⟩, true⟩ := by cbv
  exact ⟨_, built, factored_form_expands built⟩

end NestedPoly
