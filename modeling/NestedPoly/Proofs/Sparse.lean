import Mathlib
import NestedPoly.Sparse

namespace NestedPoly

variable {α : Type} {dim : Nat} {monomials : List (Monomial α)}

theorem checkDimensions_eq_ok_iff : checkDimensions dim monomials = .ok () ↔
    ∀ m ∈ monomials, m.dim = dim := by
  unfold checkDimensions
  split
  · rename_i wrong row found
    have listed := List.mem_of_find?_eq_some found
    have different : wrong.dim ≠ dim := by simpa using List.find?_some found
    simp only [reduceCtorEq, false_iff]
    intro uniform
    have place := List.mem_zipIdx_iff_getElem?.mp listed
    exact different (uniform wrong (List.mem_of_getElem? place))
  · rename_i found
    rw [List.find?_eq_none] at found
    simp only [true_iff]
    intro m member
    obtain ⟨i, place⟩ := List.mem_iff_getElem?.mp member
    simpa using found (m, i) (List.mem_zipIdx_iff_getElem?.mpr place)

/-- The monomial at `row` is the first that has not `dim` exponents, but `found`. -/
def UnevenAt (dim : Nat) (monomials : List (Monomial α)) (row found : Nat) : Prop :=
  (monomials[row]?.map Monomial.dim = some found ∧ found ≠ dim) ∧
    ∀ i < row, ∀ m, monomials[i]? = some m → m.dim = dim

theorem not_uniform_of_unevenAt {row found : Nat} (place : UnevenAt dim monomials row found) :
    ¬ ∀ m ∈ monomials, m.dim = dim := by
  intro uniform
  obtain ⟨m, listed, rfl⟩ := Option.map_eq_some_iff.mp place.1.1
  exact place.1.2 (uniform m (List.mem_of_getElem? listed))

theorem unevenAt_unique {row other found otherFound : Nat}
    (first : UnevenAt dim monomials row found)
    (second : UnevenAt dim monomials other otherFound) : row = other ∧ found = otherFound := by
  obtain ⟨⟨place, wrong⟩, earlier⟩ := first
  obtain ⟨⟨otherPlace, otherWrong⟩, otherEarlier⟩ := second
  obtain ⟨m, at_row, rfl⟩ := Option.map_eq_some_iff.mp place
  obtain ⟨n, at_other, rfl⟩ := Option.map_eq_some_iff.mp otherPlace
  rcases Nat.lt_trichotomy row other with less | rfl | more
  · exact absurd (otherEarlier row less m at_row) wrong
  · rw [at_row] at at_other
    cases at_other
    exact ⟨rfl, rfl⟩
  · exact absurd (earlier other more n at_other) otherWrong

theorem unevenAt_of_checkDimensions {fault : Fault}
    (refused : checkDimensions dim monomials = .error fault) :
    ∃ row found, UnevenAt dim monomials row found ∧ fault = .unevenRow row dim found := by
  unfold checkDimensions at refused
  split at refused
  · rename_i wrong row found
    obtain ⟨different, i, inside, entry, earlier⟩ := List.find?_eq_some_iff_getElem.mp found
    rw [List.length_zipIdx] at inside
    rw [List.getElem_zipIdx, Nat.zero_add, Prod.mk.injEq] at entry
    obtain ⟨rfl, rfl⟩ := entry
    simp only [List.getElem_zipIdx, Nat.zero_add] at different earlier
    cases refused
    refine ⟨i, monomials[i].dim, ⟨⟨by simp [inside], by simpa using different⟩, ?_⟩, rfl⟩
    intro j before m place
    obtain ⟨below, rfl⟩ := List.getElem?_eq_some_iff.mp place
    simpa using earlier j before
  · cases refused

theorem checkDimensions_eq_error_iff {fault : Fault} :
    checkDimensions dim monomials = .error fault ↔
      ∃ row found, UnevenAt dim monomials row found ∧ fault = .unevenRow row dim found := by
  constructor
  · exact unevenAt_of_checkDimensions
  · rintro ⟨row, found, uneven, rfl⟩
    cases checked : checkDimensions dim monomials with
    | ok =>
        exact absurd (checkDimensions_eq_ok_iff.mp checked) (not_uniform_of_unevenAt uneven)
    | error fault =>
        obtain ⟨other, otherFound, alsoUneven, rfl⟩ := unevenAt_of_checkDimensions checked
        obtain ⟨rfl, rfl⟩ := unevenAt_unique uneven alsoUneven
        rfl

theorem firstRepeat_eq_none_iff {vectors : List (List Nat)} :
    firstRepeat vectors = none ↔ vectors.Nodup := by
  rw [firstRepeat, List.findSome?_eq_none_iff, List.nodup_iff_getElem?_ne_getElem?]
  simp only [Option.map_eq_none_iff, List.idxOf?_eq_none_iff, Prod.forall,
    List.mem_zipIdx_iff_getElem?]
  constructor
  · intro fresh first second before inside equal
    rw [List.getElem?_eq_getElem inside] at equal
    apply fresh vectors[second] second (List.getElem?_eq_getElem inside)
    apply List.mem_of_getElem? (i := first)
    rw [List.getElem?_take_of_lt before, equal]
  · intro distinct vector second place earlier
    rcases List.getElem?_of_mem earlier with ⟨first, taken⟩
    have inside := (List.getElem?_eq_some_iff.mp place).1
    have before : first < second := by
      by_contra beyond
      rw [List.getElem?_take_eq_none (Nat.not_lt.mp beyond)] at taken
      cases taken
    rw [List.getElem?_take_of_lt before] at taken
    exact distinct first second before inside (taken.trans place.symm)

theorem mapM_zipIdx_eq_ok_iff {ε σ τ : Type} {f : σ × Nat → Except ε τ} {good : σ → Prop}
    {g : σ → τ} (each : ∀ item place result,
      f (item, place) = .ok result ↔ good item ∧ g item = result)
    (items : List σ) (place : Nat) (results : List τ) :
    (items.zipIdx place).mapM f = .ok results ↔
      (∀ item ∈ items, good item) ∧ items.map g = results := by
  induction items generalizing place results with
  | nil => simp [pure, Except.pure]
  | cons item items ih =>
      rw [List.zipIdx_cons, List.mapM_cons, List.forall_mem_cons, bind_eq_ok_iff]
      constructor
      · rintro ⟨result, first, done⟩
        obtain ⟨rest, others, done⟩ := bind_eq_ok_iff.mp done
        cases done
        obtain ⟨fine, rfl⟩ := (each item place result).mp first
        obtain ⟨restFine, rfl⟩ := (ih (place + 1) rest).mp others
        exact ⟨⟨fine, restFine⟩, rfl⟩
      · rintro ⟨⟨fine, restFine⟩, rfl⟩
        refine ⟨g item, (each item place (g item)).mpr ⟨fine, rfl⟩, ?_⟩
        rw [(ih (place + 1) (items.map g)).mpr ⟨restFine, rfl⟩]
        rfl

theorem readExponents_eq_ok_iff {row : Nat} {entries : List Int} {exponents : List Nat} :
    readExponents row entries = .ok exponents ↔
      (∀ value ∈ entries, 0 ≤ value ∧ value < UInt32.size) ∧
        entries.map Int.toNat = exponents := by
  apply mapM_zipIdx_eq_ok_iff
  intro value var result
  dsimp only
  split
  · rename_i fits
    simp only [fits, and_self, true_and, Except.ok.injEq]
  · rename_i beyond
    simp only [beyond, false_and, reduceCtorEq]

def ReadableRow (dim : Nat) (entries : List Int) : Prop :=
  entries.length = dim ∧ ∀ value ∈ entries, 0 ≤ value ∧ value < UInt32.size

theorem readMonomial_eq_ok_iff {row : Nat} {coefficient : α} {entries : List Int}
    {m : Monomial α} :
    readMonomial dim row coefficient entries = .ok m ↔
      ReadableRow dim entries ∧ ⟨coefficient, entries.map Int.toNat⟩ = m := by
  unfold readMonomial ReadableRow
  by_cases even : entries.length = dim
  · rw [if_neg (not_not.mpr even)]
    simp only [bind_eq_ok_iff, readExponents_eq_ok_iff, even, true_and]
    constructor
    · rintro ⟨exponents, ⟨fits, rfl⟩, equal⟩
      exact ⟨fits, Except.ok.inj equal⟩
    · rintro ⟨fits, equal⟩
      exact ⟨_, ⟨fits, rfl⟩, congrArg Except.ok equal⟩
  · rw [if_pos even]
    simp only [even, false_and, iff_false]
    intro refused
    cases refused

/-- One coefficient per row, and rows that are as long as the first. -/
structure Readable (coefficients : List α) (rows : List (List Int)) : Prop where
  counts : coefficients.length = rows.length
  fits : ∀ row ∈ rows, ReadableRow (rows.headD []).length row

def rowMonomials (coefficients : List α) (rows : List (List Int)) : List (Monomial α) :=
  (coefficients.zip rows).map fun (coefficient, row) => ⟨coefficient, row.map Int.toNat⟩

theorem forall_mem_zip_iff {σ τ : Type} (good : τ → Prop) {firsts : List σ} {seconds : List τ}
    (counts : firsts.length = seconds.length) :
    (∀ entry ∈ firsts.zip seconds, good entry.2) ↔ ∀ second ∈ seconds, good second := by
  rw [← List.forall_mem_map, List.map_snd_zip (Nat.le_of_eq counts.symm)]

section
variable {coefficients : List α} {rows : List (List Int)}

theorem map_ofNat_toNat {entries : List Int} (nonnegative : ∀ value ∈ entries, 0 ≤ value) :
    (entries.map Int.toNat).map Int.ofNat = entries := by
  rw [List.map_map]
  conv_rhs => rw [← List.map_id entries]
  apply List.map_congr_left
  intro value entry
  exact Int.toNat_of_nonneg (nonnegative value entry)

theorem map_toNat_inj {first second : List Int} (nonnegative : ∀ value ∈ first, 0 ≤ value)
    (also : ∀ value ∈ second, 0 ≤ value)
    (equal : first.map Int.toNat = second.map Int.toNat) : first = second := by
  rw [← map_ofNat_toNat nonnegative, equal, map_ofNat_toNat also]

theorem exponents_rowMonomials (counts : coefficients.length = rows.length) :
    (rowMonomials coefficients rows).map Monomial.exponents = rows.map (List.map Int.toNat) := by
  have pairs := List.map_snd_zip (Nat.le_of_eq counts.symm)
  conv_rhs => rw [← pairs, List.map_map]
  rw [rowMonomials, List.map_map]
  rfl

theorem dim_of_mem_rowMonomials (readable : Readable coefficients rows) :
    ∀ m ∈ rowMonomials coefficients rows, m.dim = (rows.headD []).length := by
  intro m member
  obtain ⟨⟨coefficient, row⟩, listed, rfl⟩ := List.mem_map.mp member
  rw [Monomial.dim, List.length_map]
  exact (readable.fits row (List.of_mem_zip listed).2).1

theorem rowMonomials_ne_nil (present : rows ≠ []) (readable : Readable coefficients rows) :
    rowMonomials coefficients rows ≠ [] := by
  intro empty
  have vectors := exponents_rowMonomials readable.counts
  rw [empty] at vectors
  exact present (List.map_eq_nil_iff.mp vectors.symm)

theorem readable_rows_inj (readable : Readable coefficients rows) :
    ∀ a ∈ rows, ∀ b ∈ rows, a.map Int.toNat = b.map Int.toNat → a = b := by
  intro a listed b alsoListed
  exact map_toNat_inj (fun value entry => ((readable.fits a listed).2 value entry).1)
    (fun value entry => ((readable.fits b alsoListed).2 value entry).1)

theorem nodup_rowMonomials_iff (readable : Readable coefficients rows) :
    ((rowMonomials coefficients rows).map Monomial.exponents).Nodup ↔ rows.Nodup := by
  rw [exponents_rowMonomials readable.counts]
  constructor
  · exact List.Nodup.of_map _
  · exact List.Nodup.map_on (readable_rows_inj readable)

end

namespace SparsePoly

def arrange (options : BuildOptions) (monomials : List (Monomial α)) : List (Monomial α) :=
  if options.sort then
    monomials.mergeSort fun a b => (options.order.compareVectors a.exponents b.exponents).isLE
  else monomials

def ofChecked (dim : Nat) (monomials : List (Monomial α)) (options : BuildOptions) :
    SparsePoly α where
  monomials := arrange options monomials
  dim := dim
  degreeBounds := (arrange options monomials).foldl (fun best m => best.zipWith max m.exponents)
    (List.replicate dim 0)
  checked := options.checked

theorem perm_arrange (options : BuildOptions) (monomials : List (Monomial α)) :
    (arrange options monomials).Perm monomials := by
  unfold arrange
  split
  · exact List.mergeSort_perm _ _
  · exact List.Perm.refl _

theorem dim_of_mem_arrange (options : BuildOptions) (uniform : ∀ m ∈ monomials, m.dim = dim) :
    ∀ m ∈ arrange options monomials, m.dim = dim := by
  intro m member
  exact uniform m ((perm_arrange options monomials).mem_iff.mp member)

variable {options : BuildOptions}

theorem ofMonomials_nil : ofMonomials dim ([] : List (Monomial α)) options = .error .noMonomials :=
  rfl

theorem ofMonomials_of_uneven {fault : Fault} (present : monomials ≠ [])
    (uneven : checkDimensions dim monomials = .error fault) :
    ofMonomials dim monomials options = .error fault := by
  simp [ofMonomials, present, uneven, bind, Except.bind]

theorem ofMonomials_of_uniform (present : monomials ≠ []) (uniform : ∀ m ∈ monomials, m.dim = dim) :
    ofMonomials dim monomials options =
      match (if options.checked then firstRepeat (monomials.map Monomial.exponents) else none) with
      | some (first, second) => .error (.repeatedExponents first second)
      | none => .ok (ofChecked dim monomials options) := by
  have dimensions := checkDimensions_eq_ok_iff.mpr uniform
  unfold ofMonomials
  simp only [bind, Except.bind, pure, Except.pure, throw, throwThe, MonadExceptOf.throw, dimensions]
  rw [if_neg (by simpa using present)]
  cases wanted : options.checked with
  | false => simp [ofChecked, arrange, wanted]
  | true =>
      cases firstRepeat (monomials.map Monomial.exponents) with
      | none => simp [ofChecked, arrange, wanted]
      | some places => rfl

theorem ofMonomials_eq_ok_iff {poly : SparsePoly α} :
    ofMonomials dim monomials options = .ok poly ↔
      monomials ≠ [] ∧ (∀ m ∈ monomials, m.dim = dim) ∧
        (options.checked = true → (monomials.map Monomial.exponents).Nodup) ∧
        ofChecked dim monomials options = poly := by
  by_cases present : monomials = []
  · subst present
    simp [ofMonomials_nil]
  · rw [← checkDimensions_eq_ok_iff]
    cases dimensions : checkDimensions dim monomials with
    | error fault => simp [ofMonomials_of_uneven present dimensions]
    | ok =>
        have uniform := checkDimensions_eq_ok_iff.mp dimensions
        rw [ofMonomials_of_uniform present uniform, ← firstRepeat_eq_none_iff]
        cases options.checked with
        | false => simp [present]
        | true => cases firstRepeat (monomials.map Monomial.exponents) <;> simp [present]

theorem ofMonomials_eq_ok {poly : SparsePoly α}
    (built : ofMonomials dim monomials options = .ok poly) :
    poly.dim = dim ∧ poly.monomials.Perm monomials := by
  rcases ofMonomials_eq_ok_iff.mp built with ⟨_, _, _, rfl⟩
  exact ⟨rfl, perm_arrange options monomials⟩

theorem exists_ofMonomials (options : BuildOptions) (present : monomials ≠ [])
    (uniform : ∀ m ∈ monomials, m.dim = dim)
    (distinct : (monomials.map Monomial.exponents).Nodup) :
    ∃ poly, ofMonomials dim monomials options = .ok poly :=
  ⟨_, ofMonomials_eq_ok_iff.mpr ⟨present, uniform, fun _ => distinct, rfl⟩⟩

variable {coefficients : List α} {rows : List (List Int)}

theorem ofRows_of_counts (counts : coefficients.length = rows.length) (present : rows ≠ []) :
    ofRows coefficients rows options =
      ((coefficients.zip rows).zipIdx.mapM fun ((coefficient, entries), row) =>
        readMonomial (rows.headD []).length row coefficient entries) >>=
          fun monomials => ofMonomials (rows.headD []).length monomials options := by
  unfold ofRows
  rw [if_neg (not_not.mpr counts)]
  cases rows with
  | nil => exact absurd rfl present
  | cons first rest => rfl

theorem mapM_readMonomial_eq_ok_iff (counts : coefficients.length = rows.length) :
    (coefficients.zip rows).zipIdx.mapM (fun ((coefficient, entries), row) =>
        readMonomial dim row coefficient entries) = .ok monomials ↔
      (∀ row ∈ rows, ReadableRow dim row) ∧ rowMonomials coefficients rows = monomials := by
  have each (entry : α × List Int) (place : Nat) (m : Monomial α) :
      readMonomial dim place entry.1 entry.2 = .ok m ↔
        ReadableRow dim entry.2 ∧ ⟨entry.1, entry.2.map Int.toNat⟩ = m :=
    readMonomial_eq_ok_iff
  rw [← forall_mem_zip_iff (ReadableRow dim) counts]
  exact mapM_zipIdx_eq_ok_iff each _ _ _

theorem ofRows_eq_ok_iff {poly : SparsePoly α} :
    ofRows coefficients rows options = .ok poly ↔
      rows ≠ [] ∧ Readable coefficients rows ∧
        ofMonomials (rows.headD []).length (rowMonomials coefficients rows) options = .ok poly := by
  by_cases counts : coefficients.length = rows.length
  · by_cases present : rows ≠ []
    · rw [ofRows_of_counts counts present, bind_eq_ok_iff]
      simp only [mapM_readMonomial_eq_ok_iff counts]
      constructor
      · intro built
        rcases built with ⟨monomials, ⟨fits, rfl⟩, built⟩
        exact ⟨present, ⟨counts, fits⟩, built⟩
      · intro built
        rcases built with ⟨_, readable, built⟩
        exact ⟨_, ⟨readable.fits, rfl⟩, built⟩
    · have empty : rows = [] := not_not.mp present
      subst empty
      simp [ofRows, counts]
  · unfold ofRows
    rw [if_pos counts]
    constructor
    · intro refused
      cases refused
    · intro built
      exact absurd built.2.1.counts counts

end SparsePoly

end NestedPoly
