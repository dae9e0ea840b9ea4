import Mathlib
import NestedPoly.Workbench
import NestedPoly.Proofs.Gather
import NestedPoly.Proofs.WordSums

namespace NestedPoly

variable {α : Type} {dim var : Nat}

theorem max_word (a b : UInt64) : max a b = if a ≤ b then b else a := rfl

instance lawfulMaxWord : Std.LawfulOrderMax UInt64 where
  max_le_iff a b c := by
    rw [max_word]
    grind
  max_eq_or a b := by
    rw [max_word]
    grind

theorem le_foldl_max {sums : List UInt64} {x : UInt64} (member : x ∈ sums) :
    x ≤ sums.foldl max 0 := by
  have largest : (0 :: sums).max? = some (sums.foldl max 0) := List.max?_cons'
  exact (List.max?_eq_some_iff.mp largest).2 x (List.mem_cons_of_mem 0 member)

theorem foldl_max_mem {sums : List UInt64} (positive : sums.foldl max 0 ≠ 0) :
    sums.foldl max 0 ∈ sums := by
  have largest : (0 :: sums).max? = some (sums.foldl max 0) := List.max?_cons'
  rcases List.mem_cons.mp (List.max?_eq_some_iff.mp largest).1 with zero | member
  · exact absurd zero positive
  · exact member

theorem eq_largest_iff {f : Nat → UInt64} {var : Nat}
    (positive : ((List.range dim).map f).foldl max 0 ≠ 0) (below : var < dim) :
    f var = ((List.range dim).map f).foldl max 0 ↔
      0 < (f var).toNat ∧ ∀ other < dim, (f other).toNat ≤ (f var).toNat := by
  have upper : ∀ other < dim, f other ≤ ((List.range dim).map f).foldl max 0 := by
    intro other inside
    exact le_foldl_max (List.mem_map.mpr ⟨other, List.mem_range.mpr inside, rfl⟩)
  constructor
  · intro equal
    refine ⟨?_, ?_⟩
    · rw [equal]
      exact Nat.pos_of_ne_zero fun zero => positive (UInt64.toNat_inj.mp zero)
    · intro other inside
      rw [equal]
      exact UInt64.le_iff_toNat_le.mp (upper other inside)
  · intro greatest
    obtain ⟨top, listed, attained⟩ := List.mem_map.mp (foldl_max_mem positive)
    have above := greatest.2 top (List.mem_range.mp listed)
    rw [attained] at above
    exact UInt64.le_antisymm (upper var below) (UInt64.le_iff_toNat_le.mpr above)

theorem heaviest_map_range (f : Nat → UInt64) (dim : Nat) :
    heaviest ((List.range dim).map f) = leader dim fun var => (f var).toNat := by
  unfold heaviest leader
  by_cases zero : ((List.range dim).map f).foldl max 0 = 0
  · rw [if_pos zero]
    symm
    rw [List.find?_eq_none]
    intro var member
    have := le_foldl_max (List.mem_map.mpr ⟨var, member, rfl⟩ : f var ∈ (List.range dim).map f)
    rw [zero, UInt64.le_iff_toNat_le, UInt64.toNat_zero] at this
    simp only [decide_eq_true_eq, not_and]
    omega
  · rw [if_neg zero]
    apply Option.ext
    intro var
    rw [List.idxOf?_eq_some_iff, List.find?_range_eq_some]
    simp only [List.length_map, List.length_range, List.getElem_map, List.getElem_range,
      List.mem_range, decide_eq_true_eq, Bool.not_eq_true', decide_eq_false_iff_not, exists_prop]
    constructor
    · rintro ⟨below, equal, earlier⟩
      refine ⟨(eq_largest_iff zero below).mp equal, below, ?_⟩
      intro other small
      exact fun more => earlier other small ((eq_largest_iff zero (by omega)).mpr more)
    · rintro ⟨more, below, earlier⟩
      refine ⟨below, (eq_largest_iff zero below).mpr more, ?_⟩
      intro other small
      exact fun equal => earlier other small ((eq_largest_iff zero (by omega)).mp equal)

def Term.monomial (term : Term α) : Monomial α := ⟨term.coefficient, term.exponents⟩

def residuals (branch : Array (Term α)) : List (Monomial α) := branch.toList.map Term.monomial

@[simp] theorem Term.exponent_monomial (term : Term α) (var : Nat) :
    term.monomial.exponent var = term.exponent var := rfl

@[simp] theorem Term.dim_monomial (term : Term α) :
    term.monomial.dim = term.exponents.length := rfl

@[simp] theorem Term.contains_none (var : Nat) (term : Term α) :
    Term.contains none var term = decide (0 < term.exponent var) := rfl

@[simp] theorem Term.monomial_divide (coding : Option PrimeCoding) (var power : Nat)
    (term : Term α) :
    (term.divide coding var power).monomial = term.monomial.quotient var power := rfl

theorem length_residuals (branch : Array (Term α)) : (residuals branch).length = branch.size := by
  simp [residuals]

theorem foldl_zipWith {σ τ : Type} (op : τ → Nat → τ) (vector : σ → List Nat) (items : List σ)
    (g : Nat → τ) (uniform : ∀ item ∈ items, (vector item).length = dim) :
    items.foldl (fun best item => best.zipWith op (vector item)) ((List.range dim).map g) =
      (List.range dim).map fun var =>
        items.foldl (fun best item => op best ((vector item).getD var 0)) (g var) := by
  induction items generalizing g with
  | nil => rfl
  | cons item items ih =>
      have combined : ((List.range dim).map g).zipWith op (vector item) =
          (List.range dim).map fun var => op (g var) ((vector item).getD var 0) := by
        have length := uniform item (by simp)
        apply List.ext_getElem
        · simp [length]
        · intro var inside _
          have below : var < (vector item).length := by
            simp only [List.length_zipWith] at inside
            omega
          simp [List.getElem?_eq_getElem below]
      rw [List.foldl_cons, combined,
        ih _ (fun other member => uniform other (List.mem_cons_of_mem item member))]
      rfl

theorem foldl_exponent (terms : List (Term α)) (var : Nat) :
    terms.foldl (fun sum term => sum + UInt64.ofNat (term.exponents.getD var 0)) 0 =
      UInt64.ofNat (degreeIn (terms.map Term.monomial) var) := by
  have sums := foldl_wordSum ((terms.map Term.monomial).map (Monomial.exponent · var)) 0
  rw [UInt64.zero_add, List.map_map, List.foldl_map] at sums
  rw [degreeIn, List.map_map, ← sums]
  rfl

theorem exponentSums_eq {branch : Array (Term α)}
    (uniform : ∀ m ∈ residuals branch, m.dim = dim) :
    exponentSums dim branch =
      (List.range dim).map fun var => UInt64.ofNat (degreeIn (residuals branch) var) := by
  have lengths : ∀ term ∈ branch.toList, term.exponents.length = dim := by
    intro term member
    exact uniform term.monomial (List.mem_map.mpr ⟨term, member, rfl⟩)
  have start : List.replicate dim 0 = (List.range dim).map fun _ => (0 : UInt64) := by
    simp
  rw [exponentSums, ← Array.foldl_toList, start, foldl_zipWith _ _ _ _ lengths]
  simp only [foldl_exponent]
  rfl

theorem heaviest_exponentSums {branch : Array (Term α)}
    (uniform : ∀ m ∈ residuals branch, m.dim = dim) :
    heaviest (exponentSums dim branch) = (Rule.wrapped α dim).choose (residuals branch) := by
  rw [exponentSums_eq uniform, heaviest_map_range]
  simp only [UInt64.toNat_ofNat']
  rfl

theorem toList_inside (coding : Option PrimeCoding) (var : Nat) (branch : Array (Term α)) :
    (sides coding var branch).1.toList = branch.toList.filter (Term.contains coding var) :=
  extract_gather_front _ branch

theorem toList_outside_perm (coding : Option PrimeCoding) (var : Nat) (branch : Array (Term α)) :
    (sides coding var branch).2.toList.Perm
      (branch.toList.filter (!Term.contains coding var ·)) :=
  extract_gather_back _ branch

theorem residuals_inside (var : Nat) (branch : Array (Term α)) :
    residuals (sides none var branch).1 = having var (residuals branch) := by
  rw [residuals, toList_inside, having, residuals, List.filter_map]
  rfl

theorem residuals_outside_perm (var : Nat) (branch : Array (Term α)) :
    (residuals (sides none var branch).2).Perm (lacking var (residuals branch)) := by
  apply ((toList_outside_perm none var branch).map Term.monomial).trans
  rw [lacking, residuals, List.filter_map]
  apply List.Perm.of_eq
  congr 1
  apply List.filter_congr
  intro term _
  rw [Term.contains_none, Function.comp_apply, Term.exponent_monomial, ← decide_not]
  exact decide_eq_decide.mpr (Nat.not_lt.trans Nat.le_zero)

theorem smallestPower_inside (var : Nat) (branch : Array (Term α)) :
    smallestPower var (sides none var branch).1 = commonPower var (residuals branch) := by
  rw [smallestPower, commonPower, ← residuals_inside, residuals, List.map_map]
  rfl

theorem smallestPower_le {inside : Array (Term α)} {term : Term α} (member : term ∈ inside) :
    smallestPower var inside ≤ term.exponent var := by
  apply List.min?_getD_le_of_mem
  exact List.mem_map.mpr ⟨term, by simpa using member, rfl⟩

theorem residuals_divide (coding : Option PrimeCoding) (var power : Nat)
    (inside : Array (Term α)) :
    residuals (inside.map (Term.divide coding var power)) =
      (residuals inside).map (Monomial.quotient var power) := by
  simp [residuals, Function.comp_def]

def factoredBranch (coding : Option PrimeCoding) (var : Nat) (branch : Array (Term α)) :
    Array (Term α) :=
  (sides coding var branch).1.map
    (Term.divide coding var (smallestPower var (sides coding var branch).1))

theorem residuals_factoredBranch (var : Nat) (branch : Array (Term α)) :
    residuals (factoredBranch none var branch) = quotients var (residuals branch) := by
  rw [factoredBranch, residuals_divide, residuals_inside, smallestPower_inside, quotients]

section
variable {branch : Array (Term α)} {monomials : List (Monomial α)}

theorem size_eq_length (same : (residuals branch).Perm monomials) :
    branch.size = monomials.length := by
  rw [← length_residuals, same.length_eq]

theorem exists_single_term {m : Monomial α} (same : (residuals branch).Perm [m]) :
    ∃ term, branch.toList = [term] ∧ term.monomial = m := by
  simpa [residuals, List.map_eq_singleton_iff] using List.perm_singleton.mp same

theorem several_terms (same : (residuals branch).Perm monomials)
    (several : ∀ m, monomials ≠ [m]) : ∀ term, branch.toList ≠ [term] := by
  intro term single
  apply several term.monomial
  rw [residuals, single] at same
  exact List.perm_singleton.mp same.symm

/-- The variable with the largest sum is the one that is chosen on the monomials. -/
theorem heaviest_eq_choose (same : (residuals branch).Perm monomials)
    (uniform : ∀ m ∈ monomials, m.dim = dim) :
    heaviest (exponentSums dim branch) = (Rule.wrapped α dim).choose monomials := by
  rw [← choose_wrapped_perm same]
  apply heaviest_exponentSums
  intro m member
  exact uniform m (same.mem_iff.mp member)

theorem smallestPower_eq_commonPower (same : (residuals branch).Perm monomials) (var : Nat) :
    smallestPower var (sides none var branch).1 = commonPower var monomials := by
  rw [smallestPower_inside, commonPower_perm same]

theorem factoredBranch_perm (same : (residuals branch).Perm monomials) (var : Nat) :
    (residuals (factoredBranch none var branch)).Perm (quotients var monomials) := by
  rw [residuals_factoredBranch]
  exact quotients_perm same var

theorem rest_perm (same : (residuals branch).Perm monomials) (var : Nat) :
    (residuals (sides none var branch).2).Perm (lacking var monomials) :=
  (residuals_outside_perm var branch).trans (lacking_perm same var)

theorem size_outside_ne_zero (same : (residuals branch).Perm monomials)
    (divided : lacking var monomials ≠ []) : (sides none var branch).2.size ≠ 0 := by
  rw [size_eq_length (rest_perm same var)]
  exact fun empty => divided (List.length_eq_zero_iff.mp empty)

theorem size_inside (same : (residuals branch).Perm monomials) (var : Nat) :
    (sides none var branch).1.size = (quotients var monomials).length := by
  rw [← size_eq_length (factoredBranch_perm same var), factoredBranch, Array.size_map]

end

theorem divide_whole (bench : Workbench α) {coding : Option PrimeCoding} {branch : Array (Term α)}
    (whole : (sides coding var branch).2.size = 0) :
    bench.divide coding branch var =
      { bench with
        tasks := .split (factoredBranch coding var branch) ::
          .join var (smallestPower var (sides coding var branch).1) false :: bench.tasks
        splits := ⟨var, smallestPower var (sides coding var branch).1,
          (sides coding var branch).1.size, 0⟩ :: bench.splits } := by
  simp [Workbench.divide, factoredBranch, Array.isEmpty, whole]

theorem divide_parted (bench : Workbench α) {coding : Option PrimeCoding} {branch : Array (Term α)}
    (parted : (sides coding var branch).2.size ≠ 0) :
    bench.divide coding branch var =
      { bench with
        tasks := .split (factoredBranch coding var branch) ::
          .split (sides coding var branch).2 ::
          .join var (smallestPower var (sides coding var branch).1) true :: bench.tasks
        splits := ⟨var, smallestPower var (sides coding var branch).1,
          (sides coding var branch).1.size, (sides coding var branch).2.size⟩ ::
            bench.splits } := by
  simp [Workbench.divide, factoredBranch, Array.isEmpty, parted]

end NestedPoly
