import Mathlib
import NestedPoly.Factoring

namespace NestedPoly

namespace CodingShelf

theorem find?_get (shelf : CodingShelf) (dim other : Nat) :
    (shelf.get dim).2.find? other =
      if other = dim then some (shelf.get dim).1 else shelf.find? other := by
  unfold get
  cases found : shelf.find? dim with
  | some coding =>
      by_cases same : other = dim
      · rw [if_pos same, same, found]
      · rw [if_neg same]
  | none =>
      by_cases same : other = dim
      · rw [if_pos same, same]
        exact List.lookup_cons_self
      · have different : (other == dim) = false := beq_false_of_ne same
        rw [if_neg same, find?, List.lookup_cons, different]
        rfl

theorem size_get (shelf : CodingShelf) (dim : Nat) :
    (shelf.get dim).2.size = shelf.size + if (shelf.find? dim).isSome then 0 else 1 := by
  unfold get
  cases shelf.find? dim with
  | some coding => rfl
  | none => rfl

/-- The shelf after these dimensions were asked for, the first one first. -/
def fill (dims : List Nat) : CodingShelf := dims.foldl (fun shelf dim => (shelf.get dim).2) empty

theorem fill_append (dims : List Nat) (dim : Nat) :
    fill (dims ++ [dim]) = ((fill dims).get dim).2 := by
  rw [fill, List.foldl_append]
  rfl

theorem get_eq_ofDim {shelf : CodingShelf} {dim : Nat}
    (made : ∀ coding, shelf.find? dim = some coding → coding = PrimeCoding.ofDim dim) :
    (shelf.get dim).1 = PrimeCoding.ofDim dim := by
  unfold get
  cases found : shelf.find? dim with
  | some coding => exact made coding found
  | none => rfl

theorem find?_fill (dims : List Nat) (dim : Nat) :
    (fill dims).find? dim = if dim ∈ dims then some (PrimeCoding.ofDim dim) else none := by
  induction dims using List.reverseRecOn generalizing dim with
  | nil => rfl
  | append_singleton dims last ih =>
      have made : ∀ coding, (fill dims).find? last = some coding → coding = PrimeCoding.ofDim last := by
        intro coding found
        rw [ih, Option.ite_none_right_eq_some] at found
        exact (Option.some.inj found.2).symm
      rw [fill_append, find?_get, get_eq_ofDim made, ih]
      by_cases same : dim = last
      · simp [same]
      · simp [same]

/-- However a shelf was filled, it gives out the coding of the dimension. -/
theorem get_fill (dims : List Nat) (dim : Nat) :
    ((fill dims).get dim).1 = PrimeCoding.ofDim dim := by
  apply get_eq_ofDim
  intro coding found
  rw [find?_fill, Option.ite_none_right_eq_some] at found
  exact (Option.some.inj found.2).symm

theorem size_fill (dims : List Nat) : (fill dims).size = dims.toFinset.card := by
  induction dims using List.reverseRecOn with
  | nil => rfl
  | append_singleton dims last ih =>
      rw [fill_append, size_get, ih, find?_fill, List.toFinset_append, List.toFinset_cons,
        List.toFinset_nil, insert_empty_eq, Finset.union_singleton]
      by_cases known : last ∈ dims
      · rw [Finset.insert_eq_of_mem (List.mem_toFinset.mpr known)]
        simp [known]
      · rw [Finset.card_insert_of_notMem (by simpa using known)]
        simp [known]

end CodingShelf

theorem prepare_of_fill {α : Type} {options : FactoringOptions} (coded : options.useCodes = true)
    (dims : List Nat) (dim : Nat) (monomials : List (Monomial α)) :
    prepare options dim monomials =
      match codedTerms ((CodingShelf.fill dims).get dim).1 monomials with
      | .ok terms => (some ((CodingShelf.fill dims).get dim).1, terms, [])
      | .error cause => (none, plainTerms monomials, [.withoutCodes cause]) := by
  rw [CodingShelf.get_fill]
  exact if_pos coded

end NestedPoly
