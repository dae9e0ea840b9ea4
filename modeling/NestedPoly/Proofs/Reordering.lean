import Mathlib
import NestedPoly.Proofs.Outcome

/-! Factoring does not depend on the order of the monomials.

The work moves terms about in their branches. What the greedy rule asks for are sums, smallest powers
and sides, and the sides of a list in another order are the sides in another order, so the tree is the
greedy form of the list in every order. -/

namespace NestedPoly

variable {α : Type} {dim : Nat} {monomials others : List (Monomial α)} {nest : Nest α}

theorem several_perm (same : monomials.Perm others) (several : ∀ m, monomials ≠ [m]) :
    ∀ m, others ≠ [m] := by
  intro m single
  rw [single] at same
  exact several m (List.perm_singleton.mp same)

theorem greedyForm_perm (form : GreedyForm (Rule.wrapped α dim) monomials nest)
    (same : monomials.Perm others) : GreedyForm (Rule.wrapped α dim) others nest := by
  induction form generalizing others with
  | leaf m =>
      rw [List.perm_singleton.mp same.symm]
      exact GreedyForm.leaf m
  | @scaled monomials var factored several leading whole inner ih =>
      have rest := lacking_perm same var
      rw [whole] at rest
      rw [choose_wrapped_perm same] at leading
      rw [commonPower_perm same]
      exact GreedyForm.scaled (several_perm same several) leading (List.nil_perm.mp rest)
        (ih (quotients_perm same var))
  | @joined monomials var factored rest several leading divided inner outer innerIh outerIh =>
      have alsoDivided : lacking var others ≠ [] := by
        intro whole
        have rest := lacking_perm same var
        rw [whole] at rest
        exact divided (List.perm_nil.mp rest)
      rw [choose_wrapped_perm same] at leading
      rw [commonPower_perm same]
      exact GreedyForm.joined (several_perm same several) leading alsoDivided
        (innerIh (quotients_perm same var)) (outerIh (lacking_perm same var))

theorem outcome_perm {options : FactoringOptions} {form : NestedForm α}
    (same : monomials.Perm others)
    (built : (factorMonomials options dim monomials).outcome = .ok form)
    (choice : FactoringOptions) :
    (factorMonomials choice dim others).outcome =
      .ok (NestedForm.ofArena form.arena dim choice.checked) := by
  rcases greedyForm_of_outcome_eq_ok built with ⟨present, uniform, nest, shape, room, rfl⟩
  have alsoPresent : others ≠ [] := by
    intro empty
    rw [empty] at same
    exact present (List.perm_nil.mp same)
  have alsoUniform : ∀ m ∈ others, m.dim = dim := by
    intro m member
    exact uniform m (same.mem_iff.mpr member)
  exact outcome_of_greedyForm choice (greedyForm_perm shape same) alsoPresent alsoUniform room

section
variable {coefficients : List α} {rows : List (List Int)} {options : BuildOptions}
  {form : NestedForm α} (built : (NestedForm.ofRows coefficients rows options).outcome = .ok form)
include built

theorem outcome_rowMonomials (choice : FactoringOptions) :
    rows ≠ [] ∧ Readable coefficients rows ∧
    (factorMonomials choice (rows.headD []).length (rowMonomials coefficients rows)).outcome =
      .ok (NestedForm.ofArena form.arena (rows.headD []).length choice.checked) := by
  unfold NestedForm.ofRows at built
  cases read : SparsePoly.ofRows coefficients rows options with
  | error fault =>
      rw [read] at built
      cases built
  | ok poly =>
      simp only [read] at built
      obtain ⟨present, readable, made⟩ := SparsePoly.ofRows_eq_ok_iff.mp read
      obtain ⟨dims, same⟩ := SparsePoly.ofMonomials_eq_ok made
      refine ⟨present, readable, ?_⟩
      rw [← dims]
      exact outcome_perm same built choice

theorem outcome_ofRows (choice : BuildOptions) :
    (NestedForm.ofRows coefficients rows choice).outcome =
      .ok (NestedForm.ofArena form.arena (rows.headD []).length choice.checked) := by
  obtain ⟨present, readable, plain⟩ := outcome_rowMonomials built FactoringOptions.standard
  obtain ⟨monomialsPresent, uniform, nest, shape, -⟩ := greedyForm_of_outcome_eq_ok plain
  obtain ⟨poly, made⟩ := SparsePoly.exists_ofMonomials choice monomialsPresent uniform
    (nodup_of_greedyForm shape)
  obtain ⟨dims, same⟩ := SparsePoly.ofMonomials_eq_ok made
  rw [NestedForm.ofRows, SparsePoly.ofRows_eq_ok_iff.mpr ⟨present, readable, made⟩]
  change (factorMonomials _ poly.dim poly.monomials).outcome = _
  rw [dims]
  exact outcome_perm same.symm plain _

end

/-- The same nested form comes of a list of monomials and of the list in another order. So rows of
exponents are laid out in one arena whether they are sorted or not, and in whichever order of terms. -/
theorem factoring_ignores_order :
    (∀ (options : FactoringOptions) (dim : Nat) (monomials others : List (Monomial α))
        (form : NestedForm α), monomials.Perm others →
      (factorMonomials options dim monomials).outcome = .ok form →
        (factorMonomials options dim others).outcome = .ok form) ∧
    ∀ (coefficients : List α) (rows : List (List Int)) (first second : BuildOptions)
        (form : NestedForm α), (NestedForm.ofRows coefficients rows first).outcome = .ok form →
      ∃ other, (NestedForm.ofRows coefficients rows second).outcome = .ok other ∧
        other.arena = form.arena := by
  constructor
  · intro options dim monomials others form same built
    rcases greedyForm_of_outcome_eq_ok built with ⟨_, _, nest, _, _, rfl⟩
    exact outcome_perm same built options
  · intro coefficients rows first second form built
    exact ⟨_, outcome_ofRows built second, rfl⟩

theorem factoring_ignores_order_three : ∃ form : NestedForm Int,
    (factorMonomials ⟨true, true⟩ 2 [⟨7, [0, 1]⟩, ⟨5, [2, 1]⟩, ⟨3, [1, 0]⟩]).outcome = .ok form ∧
      ∃ other : NestedForm Int,
        (NestedForm.ofRows [7, 5, 3] [[0, 1], [2, 1], [1, 0]] ⟨true, true, .grevlex⟩).outcome =
          .ok other ∧ other.arena = form.arena := by
  have built : (factorMonomials ⟨true, true⟩ 2
      [⟨(5 : Int), [2, 1]⟩, ⟨3, [1, 0]⟩, ⟨7, [0, 1]⟩]).outcome =
        .ok ⟨⟨#[.leaf 5 [(1, 1)], .leaf 3 [], .factor 0 1 0 (some 1), .leaf 7 [(1, 1)],
          .factor 0 1 2 (some 3)]⟩, 2, ⟨4, 2⟩, true⟩ := by cbv
  have unsorted : (NestedForm.ofRows [(7 : Int), 5, 3] [[0, 1], [2, 1], [1, 0]]
      ⟨false, true, .lex⟩).outcome =
        .ok ⟨⟨#[.leaf 5 [(1, 1)], .leaf 3 [], .factor 0 1 0 (some 1), .leaf 7 [(1, 1)],
          .factor 0 1 2 (some 3)]⟩, 2, ⟨4, 2⟩, true⟩ := by cbv
  have moved : [⟨(5 : Int), [2, 1]⟩, ⟨3, [1, 0]⟩, ⟨7, [0, 1]⟩].Perm
      [⟨7, [0, 1]⟩, ⟨5, [2, 1]⟩, (⟨3, [1, 0]⟩ : Monomial Int)] := by decide
  exact ⟨_, factoring_ignores_order.1 _ _ _ _ _ moved built,
    factoring_ignores_order.2 _ _ _ ⟨true, true, .grevlex⟩ _ unsorted⟩

end NestedPoly
