namespace NestedPoly

def sumOf (numbers : List Nat) : Nat := numbers.foldr (· + ·) 0

@[simp] theorem sumOf_nil : sumOf [] = 0 := rfl

@[simp] theorem sumOf_cons (n : Nat) (rest : List Nat) : sumOf (n :: rest) = n + sumOf rest := rfl

/-- The sum in 64 bits. At `2 ^ 64` it starts again from zero. -/
def wordSum (numbers : List Nat) : UInt64 :=
  numbers.foldl (fun sum n => sum + UInt64.ofNat n) 0

theorem foldl_wordSum (numbers : List Nat) (start : UInt64) :
    numbers.foldl (fun sum n => sum + UInt64.ofNat n) start =
      start + UInt64.ofNat (sumOf numbers) := by
  induction numbers generalizing start with
  | nil => simp
  | cons n rest ih => rw [List.foldl_cons, ih, sumOf_cons, UInt64.ofNat_add, UInt64.add_assoc]

theorem toNat_wordSum (numbers : List Nat) :
    (wordSum numbers).toNat = sumOf numbers % UInt64.size := by
  rw [wordSum, foldl_wordSum]
  simp

end NestedPoly
