import Mathlib
import NestedPoly.Proofs.TermOrder
import NestedPoly.Proofs.WordSums

/-! The orders agree with multiplication.

A product of monomials has the sum of their vectors. Ranks are added as vectors are, as long as degrees
fit, and comparing entry by entry does not change when one vector is added on both sides. A rank
compared this way is as much an order as the integers are. -/

namespace NestedPoly

namespace TermOrder

structure Linear (cmp : List Nat → List Nat → Ordering) (n : Nat) : Prop where
  eq_iff : ∀ {a b : List Nat}, a.length = n → b.length = n → (cmp a b = .eq ↔ a = b)
  swap : ∀ {a b : List Nat}, a.length = n → b.length = n → cmp b a = (cmp a b).swap
  trans : ∀ {a b c : List Nat}, a.length = n → b.length = n → c.length = n →
    cmp a b = .lt → cmp b c = .lt → cmp a c = .lt

def Narrow (a : List Nat) : Prop := ∀ e ∈ a, e < UInt32.size

/-- What makes a total order a monomial order: the zero vector comes first, and vectors that are
multiplied by one monomial stay in their order. -/
structure Admissible (cmp : List Nat → List Nat → Ordering) (n : Nat) : Prop
    extends Linear cmp n where
  zero_first : ∀ {a : List Nat}, a.length = n → Narrow a → cmp (List.replicate n 0) a ≠ .gt
  add_right : ∀ {a b c : List Nat}, a.length = n → b.length = n → c.length = n →
    Narrow (a.zipWith (· + ·) c) → Narrow (b.zipWith (· + ·) c) →
      cmp (a.zipWith (· + ·) c) (b.zipWith (· + ·) c) = cmp a b

def exactRank : TermOrder → List Nat → List Int
  | lex, a => a.map Int.ofNat
  | grlex, a => Int.ofNat (sumOf a) :: a.map Int.ofNat
  | grevlex, a => Int.ofNat (sumOf a) :: (a.map fun entry => -Int.ofNat entry).reverse

/-- The order does not go by degree, or degrees of vectors of this length fit. -/
def Settled (order : TermOrder) (n : Nat) : Prop := order = .lex ∨ n ≤ UInt32.size + 1

theorem rank_eq {order : TermOrder} {a : List Nat} (settled : order.Settled a.length)
    (narrow : Narrow a) : order.rank a = order.exactRank a := by
  rcases settled with rfl | short
  · rfl
  · have degree : (wordSum a).toNat = sumOf a := by
      rw [toNat_wordSum, Nat.mod_eq_of_lt (sum_lt_of_forall_lt narrow short)]
    cases order with
    | lex => rfl
    | grlex => rw [rank, exactRank, degree]
    | grevlex => rw [rank, exactRank, degree]

theorem compareVectors_eq_exact {order : TermOrder} {a b : List Nat}
    (length : a.length = b.length) (settled : order.Settled a.length) (first : Narrow a)
    (second : Narrow b) :
    order.compareVectors a b = compare (order.exactRank a) (order.exactRank b) := by
  rw [order.compareVectors_eq length, rank_eq settled first, rank_eq (length ▸ settled) second]

theorem narrow_of_zipWith_add {a c : List Nat} (length : a.length = c.length)
    (narrow : Narrow (a.zipWith (· + ·) c)) : Narrow a := by
  intro e member
  obtain ⟨i, inside, rfl⟩ := List.getElem_of_mem member
  have both : i < (a.zipWith (· + ·) c).length := by simpa [length] using inside
  have sum := narrow _ (List.getElem_mem both)
  rw [List.getElem_zipWith] at sum
  omega

theorem length_exactRank (order : TermOrder) {a b : List Nat} (length : a.length = b.length) :
    (order.exactRank a).length = (order.exactRank b).length := by
  cases order <;> simp [exactRank, length]

theorem sumOf_zipWith_add {a c : List Nat} (length : a.length = c.length) :
    sumOf (a.zipWith (· + ·) c) = sumOf a + sumOf c := by
  induction a generalizing c with
  | nil =>
      cases c with
      | nil => rfl
      | cons z zs => cases length
  | cons x xs ih =>
      cases c with
      | nil => cases length
      | cons z zs =>
          rw [List.zipWith_cons_cons, sumOf_cons, sumOf_cons, sumOf_cons, ih (by simpa using length)]
          omega

theorem map_zipWith_add {f : Nat → Int} (additive : ∀ x z, f (x + z) = f x + f z) (a c : List Nat) :
    (a.zipWith (· + ·) c).map f = (a.map f).zipWith (· + ·) (c.map f) := by
  rw [List.map_zipWith, List.zipWith_map]
  simp only [additive]

theorem exactRank_add (order : TermOrder) {a c : List Nat} (length : a.length = c.length) :
    order.exactRank (a.zipWith (· + ·) c) = (order.exactRank a).zipWith (· + ·) (order.exactRank c) := by
  have entries := map_zipWith_add Int.natCast_add a c
  have sums : Int.ofNat (sumOf (a.zipWith (· + ·) c)) =
      Int.ofNat (sumOf a) + Int.ofNat (sumOf c) := by
    rw [sumOf_zipWith_add length]
    rfl
  cases order with
  | lex => exact entries
  | grlex =>
      rw [exactRank, exactRank, exactRank, List.zipWith_cons_cons, sums]
      exact congrArg _ entries
  | grevlex =>
      have negated (x z : Nat) : -Int.ofNat (x + z) = -Int.ofNat x + -Int.ofNat z :=
        neg_add (Int.ofNat x) (Int.ofNat z)
      rw [exactRank, exactRank, exactRank, List.zipWith_cons_cons, sums, map_zipWith_add negated,
        List.reverse_zipWith (by simpa using length)]

theorem compare_add_right (x y z : Int) : compare (x + z) (y + z) = compare x y := by
  simp [compare, compareOfLessAndEq]

theorem compare_zipWith_add {u v w : List Int} (first : u.length = w.length)
    (second : v.length = w.length) :
    compare (u.zipWith (· + ·) w) (v.zipWith (· + ·) w) = compare u v := by
  induction w generalizing u v with
  | nil =>
      rw [List.length_eq_zero_iff.mp first, List.length_eq_zero_iff.mp second]
      rfl
  | cons z w ih =>
      cases u with
      | nil => cases first
      | cons x u =>
          cases v with
          | nil => cases second
          | cons y v =>
              rw [List.zipWith_cons_cons, List.zipWith_cons_cons, compare_cons, compare_cons,
                compare_add_right, ih (by simpa using first) (by simpa using second)]

theorem compare_zeros_ne_gt {v : List Int} (nonnegative : ∀ x ∈ v, 0 ≤ x) :
    compare (List.replicate v.length 0) v ≠ .gt := by
  induction v with
  | nil => decide
  | cons x v ih =>
      rcases List.forall_mem_cons.mp nonnegative with ⟨here, others⟩
      rw [List.length_cons, List.replicate_succ, compare_cons]
      rcases here.eq_or_lt with rfl | positive
      · rw [Std.ReflOrd.compare_self]
        exact ih others
      · rw [compare_lt_iff_lt.mpr positive]
        exact Ordering.noConfusion

theorem sumOf_zeros (n : Nat) : sumOf (List.replicate n 0) = 0 := by
  simp [sumOf_eq_sum]

theorem sumOf_pos {a : List Nat} (different : a ≠ List.replicate a.length 0) : 0 < sumOf a := by
  by_contra zero
  apply different
  rw [List.eq_replicate_iff]
  refine ⟨rfl, ?_⟩
  intro x member
  have part : x ≤ sumOf a := List.le_sum_of_mem member
  omega

theorem zeros_first (order : TermOrder) (a : List Nat) :
    compare (order.exactRank (List.replicate a.length 0)) (order.exactRank a) ≠ .gt := by
  by_cases equal : a = List.replicate a.length 0
  · rw [← equal, Std.ReflOrd.compare_self]
    exact Ordering.noConfusion
  · -- A rank by grevlex has negative entries, so it is the degree that decides.
    have greater : compare (Int.ofNat 0) (Int.ofNat (sumOf a)) = .lt :=
      compare_lt_iff_lt.mpr (Int.ofNat_lt.mpr (sumOf_pos equal))
    cases order with
    | lex =>
        have entries := compare_zeros_ne_gt (v := a.map Int.ofNat) (by simp)
        rw [List.length_map] at entries
        rw [exactRank, exactRank, List.map_replicate]
        exact entries
    | grlex =>
        rw [exactRank, exactRank, compare_cons, sumOf_zeros, greater]
        exact Ordering.noConfusion
    | grevlex =>
        rw [exactRank, exactRank, compare_cons, sumOf_zeros, greater]
        exact Ordering.noConfusion

theorem linear_compareVectors (order : TermOrder) (n : Nat) : Linear order.compareVectors n := by
  constructor
  case eq_iff =>
    intro a b first second
    rw [order.compareVectors_eq (first.trans second.symm), Std.LawfulEqOrd.compare_eq_iff_eq]
    exact order.rank_injective.eq_iff
  case swap =>
    intro a b first second
    rw [order.compareVectors_eq (first.trans second.symm),
      order.compareVectors_eq (second.trans first.symm)]
    exact Std.OrientedOrd.eq_swap
  case trans =>
    intro a b c first second third ab bc
    rw [order.compareVectors_eq (first.trans second.symm)] at ab
    rw [order.compareVectors_eq (second.trans third.symm)] at bc
    rw [order.compareVectors_eq (first.trans third.symm)]
    exact Std.TransCmp.lt_trans ab bc

/-- Each of the orders is total on the vectors of any one length. It is a monomial order if it does not
go by degree, or if the degrees of vectors of this length fit in 64 bits. -/
theorem orders_are_admissible (order : TermOrder) (n : Nat) :
    Linear order.compareVectors n ∧
      (order = .lex ∨ n ≤ UInt32.size + 1 → Admissible order.compareVectors n) := by
  refine ⟨linear_compareVectors order n, fun settled => ⟨linear_compareVectors order n, ?_, ?_⟩⟩
  · intro a length narrow
    subst length
    have zeros : (List.replicate a.length 0).length = a.length := List.length_replicate
    have alsoNarrow : Narrow (List.replicate a.length 0) := by
      intro e member
      rw [List.eq_of_mem_replicate member]
      exact Nat.two_pow_pos 32
    rw [compareVectors_eq_exact zeros (zeros.symm ▸ settled) alsoNarrow narrow]
    exact zeros_first order a
  · intro a b c first second third narrow alsoNarrow
    have ac := first.trans third.symm
    have bc := second.trans third.symm
    have left : (a.zipWith (· + ·) c).length = n := by simp [first, third]
    have right : (b.zipWith (· + ·) c).length = n := by simp [second, third]
    rw [compareVectors_eq_exact (left.trans right.symm) (left.symm ▸ settled) narrow alsoNarrow,
      compareVectors_eq_exact (first.trans second.symm) (first.symm ▸ settled)
        (narrow_of_zipWith_add ac narrow) (narrow_of_zipWith_add bc alsoNarrow),
      exactRank_add order ac, exactRank_add order bc]
    exact compare_zipWith_add (length_exactRank order ac) (length_exactRank order bc)

/-- A degree that is a multiple of `2 ^ 64` counts as zero, and then the last entry decides. -/
theorem compareGrevlex_of_wrapped {count top : Nat} (wrapped : (count * top + 1) % UInt64.size = 0) :
    compareGrevlex (List.replicate count 0 ++ [0]) (List.replicate count top ++ [1]) = .gt := by
  have degrees : wordSum (List.replicate count 0 ++ [0]) =
      wordSum (List.replicate count top ++ [1]) := by
    rw [← UInt64.toNat_inj, toNat_wordSum, toNat_wordSum, sumOf_eq_sum, sumOf_eq_sum,
      List.sum_append, List.sum_append, List.sum_replicate, List.sum_replicate, List.sum_singleton,
      List.sum_singleton, smul_eq_mul, smul_eq_mul, wrapped, Nat.mul_zero, Nat.zero_mod]
  rw [compareGrevlex, degrees, Std.ReflOrd.compare_self, compareRevlex_append (by simp)]
  rfl

theorem zeros_not_first_by_grevlex :
    (List.replicate (UInt32.size + 1) (UInt32.size - 1) ++ [1]).length = UInt32.size + 2 ∧
      Narrow (List.replicate (UInt32.size + 1) (UInt32.size - 1) ++ [1]) ∧
      grevlex.compareVectors (List.replicate (UInt32.size + 2) 0)
        (List.replicate (UInt32.size + 1) (UInt32.size - 1) ++ [1]) = .gt := by
  refine ⟨?_, ?_, ?_⟩
  · rw [List.length_append, List.length_replicate, List.length_singleton]
  · intro e member
    rw [List.mem_append, List.mem_replicate, List.mem_singleton] at member
    rcases member with ⟨-, rfl⟩ | rfl
    · decide
    · decide
  · rw [List.replicate_succ']
    exact compareGrevlex_of_wrapped (by decide)

end TermOrder

end NestedPoly
