import Mathlib
import NestedPoly.Proofs.Sparse
import NestedPoly.Proofs.TermOrder

namespace NestedPoly

variable {α : Type} {dim : Nat} {order : TermOrder} {monomials : List (Monomial α)}

def TermOrder.precedes (order : TermOrder) (a b : Monomial α) : Bool :=
  (compare (order.rank a.exponents) (order.rank b.exponents)).isLE

namespace TermOrder

theorem precedes_trans (order : TermOrder) (a b c : Monomial α) (ab : order.precedes a b = true)
    (bc : order.precedes b c = true) : order.precedes a c = true :=
  Std.TransOrd.isLE_trans ab bc

theorem precedes_total (order : TermOrder) (a b : Monomial α) :
    (order.precedes a b || order.precedes b a) = true := by
  unfold precedes
  rw [Std.OrientedOrd.eq_swap (a := order.rank b.exponents)]
  cases compare (order.rank a.exponents) (order.rank b.exponents) <;> rfl

theorem precedes_of_eq {a b : Monomial α} (equal : a.exponents = b.exponents) :
    order.precedes a b = true := by
  rw [precedes, equal, Std.ReflOrd.compare_self]
  rfl

theorem eq_of_precedes {a b : Monomial α} (ab : order.precedes a b = true)
    (ba : order.precedes b a = true) : a.exponents = b.exponents :=
  order.rank_injective (Std.LawfulEqOrd.eq_of_compare (Std.OrientedCmp.isLE_antisymm ab ba))

theorem isLE_compareVectors {a b : Monomial α} (length : a.dim = b.dim) :
    (order.compareVectors a.exponents b.exponents).isLE = order.precedes a b := by
  rw [order.compareVectors_eq length, precedes]

theorem compareVectors_eq_lt {a b : Monomial α} (length : a.dim = b.dim)
    (ab : order.precedes a b = true) (different : a.exponents ≠ b.exponents) :
    order.compareVectors a.exponents b.exponents = .lt := by
  rw [order.compareVectors_eq length]
  rcases Ordering.isLE_iff_eq_lt_or_eq_eq.mp ab with less | tied
  · exact less
  · exact absurd (order.rank_injective (Std.LawfulEqOrd.eq_of_compare tied)) different

end TermOrder

namespace SparsePoly

theorem arrange_eq_mergeSort (checked : Bool) (uniform : ∀ m ∈ monomials, m.dim = dim) :
    arrange ⟨true, checked, order⟩ monomials = monomials.mergeSort order.precedes := by
  have agree : ∀ a ∈ monomials, ∀ b ∈ monomials,
      (order.compareVectors a.exponents b.exponents).isLE = order.precedes (id a) (id b) := by
    intro a inside b alsoInside
    exact TermOrder.isLE_compareVectors ((uniform a inside).trans (uniform b alsoInside).symm)
  -- The sort compares members only, so a comparison that agrees on them may take its place.
  have sorted := List.map_mergeSort agree
  rw [List.map_id, List.map_id] at sorted
  exact sorted

theorem precedes_arrange (checked : Bool) (uniform : ∀ m ∈ monomials, m.dim = dim) :
    (arrange ⟨true, checked, order⟩ monomials).Pairwise (order.precedes · · = true) := by
  rw [arrange_eq_mergeSort checked uniform]
  exact List.pairwise_mergeSort order.precedes_trans order.precedes_total monomials

theorem isLE_arrange (checked : Bool) (uniform : ∀ m ∈ monomials, m.dim = dim) :
    (arrange ⟨true, checked, order⟩ monomials).Pairwise
      fun a b => (order.compareVectors a.exponents b.exponents).isLE = true := by
  have dims := dim_of_mem_arrange ⟨true, checked, order⟩ uniform
  apply (precedes_arrange checked uniform).imp_of_mem
  intro a b inside alsoInside ab
  rw [TermOrder.isLE_compareVectors ((dims a inside).trans (dims b alsoInside).symm)]
  exact ab

theorem ascending_arrange (checked : Bool) (uniform : ∀ m ∈ monomials, m.dim = dim)
    (distinct : (monomials.map Monomial.exponents).Nodup) :
    (arrange ⟨true, checked, order⟩ monomials).Pairwise
      fun a b => order.compareVectors a.exponents b.exponents = .lt := by
  have dims := dim_of_mem_arrange ⟨true, checked, order⟩ uniform
  have same := (perm_arrange ⟨true, checked, order⟩ monomials).map Monomial.exponents
  have different := List.pairwise_map.mp (same.nodup_iff.mpr distinct)
  apply ((precedes_arrange checked uniform).and different).imp_of_mem
  intro a b inside alsoInside both
  exact TermOrder.compareVectors_eq_lt ((dims a inside).trans (dims b alsoInside).symm) both.1 both.2

/-- Distinct vectors have one ascending arrangement. -/
theorem arrange_perm (checked : Bool) {others : List (Monomial α)} (same : others.Perm monomials)
    (uniform : ∀ m ∈ monomials, m.dim = dim)
    (distinct : (monomials.map Monomial.exponents).Nodup) :
    arrange ⟨true, checked, order⟩ others = arrange ⟨true, checked, order⟩ monomials := by
  have alsoUniform : ∀ m ∈ others, m.dim = dim :=
    fun m member => uniform m (same.mem_iff.mp member)
  have first := perm_arrange ⟨true, checked, order⟩ others
  have second := perm_arrange ⟨true, checked, order⟩ monomials
  apply List.Perm.eq_of_pairwise _ (precedes_arrange checked alsoUniform)
    (precedes_arrange checked uniform) (first.trans (same.trans second.symm))
  intro a b inside alsoInside ab ba
  have a_given : a ∈ monomials := same.mem_iff.mp (first.mem_iff.mp inside)
  have b_given : b ∈ monomials := second.mem_iff.mp alsoInside
  exact List.inj_on_of_nodup_map distinct a_given b_given (TermOrder.eq_of_precedes ab ba)

theorem filter_arrange (checked : Bool) (uniform : ∀ m ∈ monomials, m.dim = dim)
    (vector : List Nat) :
    (arrange ⟨true, checked, order⟩ monomials).filter (·.exponents = vector) =
      monomials.filter (·.exponents = vector) := by
  have same := (perm_arrange ⟨true, checked, order⟩ monomials).filter (·.exponents = vector)
  have tied : (monomials.filter (·.exponents = vector)).Pairwise (order.precedes · · = true) := by
    apply List.pairwise_of_forall_mem_list
    intro a inside b alsoInside
    have a_vector : a.exponents = vector := by simpa using (List.mem_filter.mp inside).2
    have b_vector : b.exponents = vector := by simpa using (List.mem_filter.mp alsoInside).2
    exact TermOrder.precedes_of_eq (a_vector.trans b_vector.symm)
  -- They are in order as they are, so they stay a sublist, and no others have this vector.
  have kept := List.sublist_mergeSort order.precedes_trans order.precedes_total tied
    List.filter_sublist
  rw [← arrange_eq_mergeSort checked uniform] at kept
  have part := kept.filter (·.exponents = vector)
  rw [List.filter_filter] at part
  simp only [Bool.and_self] at part
  exact (part.eq_of_length same.length_eq.symm).symm

theorem ofChecked_perm {others : List (Monomial α)} (same : others.Perm monomials)
    (uniform : ∀ m ∈ monomials, m.dim = dim)
    (distinct : (monomials.map Monomial.exponents).Nodup) :
    ofChecked dim others ⟨true, true, order⟩ = ofChecked dim monomials ⟨true, true, order⟩ := by
  unfold ofChecked
  rw [arrange_perm true same uniform distinct]

theorem ofMonomials_perm {others : List (Monomial α)} {poly : SparsePoly α}
    (same : others.Perm monomials)
    (built : ofMonomials dim monomials ⟨true, true, order⟩ = .ok poly) :
    ofMonomials dim others ⟨true, true, order⟩ = .ok poly := by
  rcases ofMonomials_eq_ok_iff.mp built with ⟨present, uniform, distinct, made⟩
  have alsoPresent : others ≠ [] := by
    intro empty
    exact present (List.nil_perm.mp (empty ▸ same))
  have alsoUniform : ∀ m ∈ others, m.dim = dim :=
    fun m member => uniform m (same.mem_iff.mp member)
  have alsoDistinct : (others.map Monomial.exponents).Nodup :=
    (same.map Monomial.exponents).nodup_iff.mpr (distinct rfl)
  have alsoMade := (ofChecked_perm same uniform (distinct rfl)).trans made
  exact ofMonomials_eq_ok_iff.mpr ⟨alsoPresent, alsoUniform, fun _ => alsoDistinct, alsoMade⟩

/-- A polynomial that is built sorted and without repeats depends on nothing but which monomials it
has, and these are in strictly ascending order. Built without a look at repeats, it still ascends, and
monomials with the same vector are in the order in which they were given. -/
theorem sorting_is_canonical (order : TermOrder) (dim : Nat) (monomials : List (Monomial α)) :
    (∀ poly, ofMonomials dim monomials ⟨true, true, order⟩ = .ok poly →
      poly.monomials.Perm monomials ∧
      poly.monomials.Pairwise
        (fun a b => order.compareVectors a.exponents b.exponents = .lt) ∧
      (∀ others, others.Perm monomials →
        ofMonomials dim others ⟨true, true, order⟩ = .ok poly) ∧
      ofMonomials dim poly.monomials ⟨true, true, order⟩ = .ok poly) ∧
    ∀ poly, ofMonomials dim monomials ⟨true, false, order⟩ = .ok poly →
      poly.monomials.Perm monomials ∧
      poly.monomials.Pairwise
        (fun a b => (order.compareVectors a.exponents b.exponents).isLE = true) ∧
      ∀ vector, poly.monomials.filter (·.exponents = vector) =
        monomials.filter (·.exponents = vector) := by
  constructor
  · intro poly built
    rcases ofMonomials_eq_ok_iff.mp built with ⟨_, uniform, distinct, rfl⟩
    have same : (ofChecked dim monomials ⟨true, true, order⟩).monomials.Perm monomials :=
      perm_arrange ⟨true, true, order⟩ monomials
    exact ⟨same, ascending_arrange true uniform (distinct rfl),
      fun others permuted => ofMonomials_perm permuted built, ofMonomials_perm same built⟩
  · intro poly built
    rcases ofMonomials_eq_ok_iff.mp built with ⟨_, uniform, _, rfl⟩
    exact ⟨perm_arrange ⟨true, false, order⟩ monomials, isLE_arrange false uniform, filter_arrange false uniform⟩

theorem sorting_is_canonical_three : ∃ poly : SparsePoly Int,
    ofMonomials 2 [⟨5, [2, 1]⟩, ⟨3, [1, 0]⟩, ⟨7, [0, 1]⟩] ⟨true, true, .grevlex⟩ = .ok poly ∧
      poly.monomials.Pairwise
        (fun a b => TermOrder.grevlex.compareVectors a.exponents b.exponents = .lt) ∧
      ofMonomials 2 [⟨7, [0, 1]⟩, ⟨5, [2, 1]⟩, ⟨3, [1, 0]⟩] ⟨true, true, .grevlex⟩ = .ok poly := by
  have built : ofMonomials 2 [⟨(5 : Int), [2, 1]⟩, ⟨3, [1, 0]⟩, ⟨7, [0, 1]⟩]
      ⟨true, true, .grevlex⟩ =
        .ok ⟨[⟨7, [0, 1]⟩, ⟨3, [1, 0]⟩, ⟨5, [2, 1]⟩], 2, [2, 1], true⟩ := by cbv
  have canonical := (sorting_is_canonical .grevlex 2
    [⟨(5 : Int), [2, 1]⟩, ⟨3, [1, 0]⟩, ⟨7, [0, 1]⟩]).1 _ built
  have rotated : [⟨(7 : Int), [0, 1]⟩, ⟨5, [2, 1]⟩, ⟨3, [1, 0]⟩].Perm
      [⟨5, [2, 1]⟩, ⟨3, [1, 0]⟩, (⟨7, [0, 1]⟩ : Monomial Int)] := by decide
  exact ⟨_, built, canonical.2.1, canonical.2.2.1 _ rotated⟩

end SparsePoly

end NestedPoly
