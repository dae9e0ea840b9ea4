import Mathlib
import NestedPoly.TermOrder

namespace NestedPoly

namespace TermOrder

/-- What the order looks at, so that ranks are compared entry by entry. -/
def rank : TermOrder → List Nat → List Int
  | lex, a => a.map Int.ofNat
  | grlex, a => Int.ofNat (wordSum a).toNat :: a.map Int.ofNat
  | grevlex, a => Int.ofNat (wordSum a).toNat :: (a.map fun entry => -Int.ofNat entry).reverse

theorem compare_ofNat (x y : Nat) : compare (Int.ofNat x) (Int.ofNat y) = compare x y := by
  simp [compare, compareOfLessAndEq]

theorem compare_toNat (x y : UInt64) : compare (Int.ofNat x.toNat) (Int.ofNat y.toNat) = compare x y := by
  simp [compare, compareOfLessAndEq, UInt64.lt_iff_toNat_lt, UInt64.toNat_inj]

theorem compare_neg_ofNat (x y : Nat) :
    compare (-Int.ofNat x) (-Int.ofNat y) = compare y x := by
  simp [compare, compareOfLessAndEq, eq_comm]

theorem compare_cons (x y : Int) (u v : List Int) :
    compare (x :: u) (y :: v) = (compare x y).then (compare u v) :=
  List.compareLex_cons_cons

theorem compareLex_eq (a b : List Nat) :
    compareLex a b = compare (a.map Int.ofNat) (b.map Int.ofNat) := by
  induction a generalizing b with
  | nil =>
      cases b with
      | nil => rfl
      | cons y ys => rfl
  | cons x xs ih =>
      cases b with
      | nil => rfl
      | cons y ys =>
          rw [compareLex, ih, List.map_cons, List.map_cons, compare_cons, compare_ofNat]

theorem compareRevlex_append {a b : List Nat} (length : a.length = b.length) (x y : Nat) :
    compareRevlex (a ++ [x]) (b ++ [y]) = (compare y x).then (compareRevlex a b) := by
  rw [compareRevlex, List.zip_append length, List.foldl_append]
  rfl

theorem compareRevlex_eq {a b : List Nat} (length : a.length = b.length) :
    compareRevlex a b = compare (a.map fun entry => -Int.ofNat entry).reverse
      (b.map fun entry => -Int.ofNat entry).reverse := by
  -- The last entry decides, so entries are taken off the end.
  induction a using List.reverseRecOn generalizing b with
  | nil =>
      cases b with
      | nil => rfl
      | cons y ys => cases length
  | append_singleton xs x ih =>
      cases b using List.reverseRecOn with
      | nil => simp at length
      | append_singleton ys y =>
          have shorter : xs.length = ys.length := by simpa using length
          rw [compareRevlex_append shorter, ih shorter]
          simp only [List.map_append, List.map_cons, List.map_nil, List.reverse_concat]
          rw [compare_cons, compare_neg_ofNat]

theorem compareVectors_eq (order : TermOrder) {a b : List Nat} (length : a.length = b.length) :
    order.compareVectors a b = compare (order.rank a) (order.rank b) := by
  cases order with
  | lex => exact compareLex_eq a b
  | grlex =>
      change compareGrlex a b = _
      rw [compareGrlex, compareLex_eq, rank, rank, compare_cons, compare_toNat]
  | grevlex =>
      change compareGrevlex a b = _
      rw [compareGrevlex, compareRevlex_eq length, rank, rank, compare_cons, compare_toNat]

theorem rank_injective (order : TermOrder) : Function.Injective order.rank := by
  have ofNat_injective : Function.Injective Int.ofNat := fun _ _ equal => Int.ofNat.inj equal
  intro a b equal
  cases order with
  | lex => exact List.map_injective_iff.mpr ofNat_injective equal
  | grlex => exact List.map_injective_iff.mpr ofNat_injective (List.cons.inj equal).2
  | grevlex =>
      have entries := List.reverse_injective (List.cons.inj equal).2
      exact List.map_injective_iff.mpr (neg_injective.comp ofNat_injective) entries

end TermOrder

end NestedPoly
