import Mathlib
import NestedPoly.Proofs.Branch
import NestedPoly.Proofs.Sparse

namespace NestedPoly

variable {σ τ : Type} {index first second : Nat}

/-- The entry at `index` is the first that is not good. -/
def FirstFailing (good : σ → Prop) (items : List σ) (index : Nat) (item : σ) : Prop :=
  items[index]? = some item ∧ ¬ good item ∧
    ∀ earlier < index, ∀ other, items[earlier]? = some other → good other

section
variable {good : σ → Prop} {item head : σ} {items : List σ}

theorem not_firstFailing_nil : ¬ FirstFailing good [] index item := by simp [FirstFailing]

theorem FirstFailing.ne_nil (failing : FirstFailing good items index item) : items ≠ [] := by
  intro empty
  exact not_firstFailing_nil (empty ▸ failing)

theorem firstFailing_cons_zero :
    FirstFailing good (head :: items) 0 item ↔ head = item ∧ ¬ good item := by
  simp [FirstFailing]

theorem firstFailing_cons_succ : FirstFailing good (head :: items) (index + 1) item ↔
    good head ∧ FirstFailing good items index item := by
  unfold FirstFailing
  rw [List.getElem?_cons_succ, Nat.forall_lt_succ_left]
  simp only [List.getElem?_cons_zero, List.getElem?_cons_succ, Option.some.injEq, forall_eq']
  tauto

theorem firstFailing_map_iff {f : τ → σ} {items : List τ} :
    FirstFailing good (items.map f) index item ↔
      ∃ source, FirstFailing (fun source => good (f source)) items index source ∧
        f source = item := by
  simp only [FirstFailing, List.getElem?_map, Option.map_eq_some_iff]
  constructor
  · intro failing
    rcases failing with ⟨⟨source, place, rfl⟩, bad, earlier⟩
    exact ⟨source, ⟨place, bad, fun i before other at_i => earlier i before _ ⟨other, at_i, rfl⟩⟩, rfl⟩
  · intro failing
    rcases failing with ⟨source, ⟨place, bad, earlier⟩, rfl⟩
    refine ⟨⟨source, place, rfl⟩, bad, ?_⟩
    intro i before other at_i
    rcases at_i with ⟨otherSource, at_i, rfl⟩
    exact earlier i before otherSource at_i

theorem mapM_zipIdx_eq_error_iff {ε : Type} {f : σ × Nat → Except ε τ}
    (succeeds : ∀ item place, good item ↔ ∃ result, f (item, place) = .ok result)
    (items : List σ) (place : Nat) (fault : ε) :
    (items.zipIdx place).mapM f = .error fault ↔
      ∃ index item, FirstFailing good items index item ∧ f (item, place + index) = .error fault := by
  induction items generalizing place with
  | nil => simp [not_firstFailing_nil, pure, Except.pure]
  | cons head items ih =>
      rw [List.zipIdx_cons, List.mapM_cons, bind_eq_error_iff]
      cases outcome : f (head, place) with
      | error cause =>
          have bad : ¬ good head := by simp [succeeds head place, outcome]
          constructor
          · intro refused
            have same : cause = fault := by simpa using refused
            exact ⟨0, head, firstFailing_cons_zero.mpr ⟨rfl, bad⟩, same ▸ outcome⟩
          · intro refused
            rcases refused with ⟨index, item, failing, refused⟩
            cases index with
            | zero =>
                rw [← (firstFailing_cons_zero.mp failing).1, Nat.add_zero, outcome] at refused
                exact .inl refused
            | succ index => exact absurd (firstFailing_cons_succ.mp failing).1 bad
      | ok result =>
          have fine : good head := (succeeds head place).mpr ⟨result, outcome⟩
          simp only [reduceCtorEq, false_or, Except.ok.injEq, exists_eq_left', bind_eq_error_iff,
            ih (place + 1), pure, Except.pure, and_false, exists_false, or_false]
          constructor
          · intro refused
            rcases refused with ⟨index, item, failing, refused⟩
            refine ⟨index + 1, item, firstFailing_cons_succ.mpr ⟨fine, failing⟩, ?_⟩
            rwa [← Nat.add_assoc, Nat.add_right_comm]
          · intro refused
            rcases refused with ⟨index, item, failing, refused⟩
            cases index with
            | zero =>
                rcases firstFailing_cons_zero.mp failing with ⟨rfl, bad⟩
                exact absurd fine bad
            | succ index =>
                refine ⟨index, item, (firstFailing_cons_succ.mp failing).2, ?_⟩
                rwa [Nat.add_right_comm, Nat.add_assoc]

end

/-- `second` is the first position whose entry stands at an earlier one, and that is `first`. -/
def FirstRepeatAt (items : List σ) (first second : Nat) : Prop :=
  IsLeast {place | place < items.length ∧ ∃ earlier < place, items[earlier]? = items[place]?}
      second ∧
    ∀ earlier < second, items[earlier]? = items[second]? ↔ earlier = first

section
variable {items : List σ}

theorem firstRepeatAt_unique {otherFirst otherSecond : Nat}
    (repeated : FirstRepeatAt items first second)
    (again : FirstRepeatAt items otherFirst otherSecond) :
    first = otherFirst ∧ second = otherSecond := by
  have same : second = otherSecond := repeated.1.unique again.1
  subst same
  rcases repeated.1.1 with ⟨_, earlier, before, equal⟩
  constructor
  · rw [← (repeated.2 earlier before).mp equal, (again.2 earlier before).mp equal]
  · rfl

theorem not_nodup_of_firstRepeatAt (repeated : FirstRepeatAt items first second) :
    ¬ items.Nodup := by
  rw [List.nodup_iff_getElem?_ne_getElem?]
  intro distinct
  rcases repeated.1.1 with ⟨inside, earlier, before, equal⟩
  exact distinct earlier second before inside equal

theorem firstRepeatAt_of_append {item : σ} {seen rest : List σ} (distinct : seen.Nodup)
    (known : seen[first]? = some item) :
    FirstRepeatAt (seen ++ item :: rest) first seen.length := by
  have here : (seen ++ item :: rest)[seen.length]? = some item := by simp
  have before {place : Nat} (earlier : place < seen.length) :
      (seen ++ item :: rest)[place]? = seen[place]? := List.getElem?_append_left earlier
  have inside : first < seen.length := (List.getElem?_eq_some_iff.mp known).1
  refine ⟨⟨⟨by simp, first, inside, ?_⟩, ?_⟩, ?_⟩
  · rw [here, before inside, known]
  · intro place repeated
    rcases repeated with ⟨_, earlier, less, equal⟩
    by_contra small
    have below : place < seen.length := Nat.not_le.mp small
    rw [before below, before (Nat.lt_trans less below)] at equal
    exact List.nodup_iff_getElem?_ne_getElem?.mp distinct earlier place less below equal
  · intro earlier below
    rw [here, before below, ← known]
    exact List.getElem?_inj below distinct

theorem firstRepeatAt_map_iff {f : σ → τ}
    (injective : ∀ a ∈ items, ∀ b ∈ items, f a = f b → a = b) :
    FirstRepeatAt (items.map f) first second ↔ FirstRepeatAt items first second := by
  have same (i j : Nat) : (items.map f)[i]? = (items.map f)[j]? ↔ items[i]? = items[j]? := by
    rw [List.getElem?_map, List.getElem?_map]
    cases left : items[i]? with
    | none => simp [eq_comm]
    | some a =>
        cases right : items[j]? with
        | none => simp
        | some b =>
            have apart := injective a (List.mem_of_getElem? left) b (List.mem_of_getElem? right)
            simpa using ⟨apart, congrArg f⟩
  simp only [FirstRepeatAt, same, List.length_map]

end

theorem firstRepeatAt_of_firstRepeat {vectors : List (List Nat)}
    (found : firstRepeat vectors = some (first, second)) :
    FirstRepeatAt vectors first second := by
  rw [firstRepeat, List.findSome?_eq_some_iff] at found
  rcases found with ⟨before, ⟨vector, place⟩, after, parts, found, fresh⟩
  rcases List.zipIdx_eq_append_iff.mp parts with ⟨seen, others, rfl, rfl, tail⟩
  cases others with
  | nil => cases tail
  | cons vector rest =>
      rw [List.zipIdx_cons, Nat.zero_add] at tail
      cases tail
      -- The scan of the entries before looked at nothing after them.
      have distinct : seen.Nodup := by
        rw [← firstRepeat_eq_none_iff, firstRepeat, List.findSome?_eq_none_iff]
        intro entry listed
        have inside : entry.2 ≤ seen.length := Nat.le_of_lt (List.snd_lt_of_mem_zipIdx listed)
        rw [← fresh entry listed]
        dsimp only
        rw [List.take_append_of_le_length inside]
      dsimp only at found
      rw [List.take_left] at found
      rcases Option.map_eq_some_iff.mp found with ⟨place, known, same⟩
      cases same
      rcases List.idxOf?_eq_some_iff.mp known with ⟨inside, entry, _⟩
      exact firstRepeatAt_of_append distinct (List.getElem?_eq_some_iff.mpr ⟨inside, entry⟩)

theorem firstRepeat_eq_some_iff {vectors : List (List Nat)} :
    firstRepeat vectors = some (first, second) ↔ FirstRepeatAt vectors first second := by
  constructor
  · exact firstRepeatAt_of_firstRepeat
  · intro repeated
    cases found : firstRepeat vectors with
    | none => exact absurd (firstRepeat_eq_none_iff.mp found) (not_nodup_of_firstRepeatAt repeated)
    | some places =>
        have same := firstRepeatAt_unique (firstRepeatAt_of_firstRepeat found) repeated
        rw [Option.some.injEq, Prod.ext_iff]
        exact same

variable {α : Type} {dim : Nat} {fault : Fault}

def IsExponent (value : Int) : Prop := 0 ≤ value ∧ value < UInt32.size

theorem readExponents_eq_error_iff {row : Nat} {entries : List Int} :
    readExponents row entries = .error fault ↔
      ∃ var value, FirstFailing IsExponent entries var value ∧
        fault = .exponentOutOfRange row var value := by
  have succeeds (value : Int) (var : Nat) : IsExponent value ↔ ∃ exponent,
      (if 0 ≤ value ∧ value < UInt32.size then .ok value.toNat
        else .error (.exponentOutOfRange row var value) : Except Fault Nat) = .ok exponent := by
    split
    · rename_i fits
      exact ⟨fun _ => ⟨_, rfl⟩, fun _ => fits⟩
    · rename_i beyond
      constructor
      · exact fun fits => absurd fits beyond
      · intro read
        cases read.choose_spec
  rw [readExponents, mapM_zipIdx_eq_error_iff succeeds]
  apply exists_congr
  intro var
  apply exists_congr
  intro value
  apply and_congr_right
  intro failing
  have beyond : ¬ (0 ≤ value ∧ value < UInt32.size) := failing.2.1
  dsimp only
  rw [if_neg beyond, Nat.zero_add, Except.error.injEq, eq_comm]

theorem readMonomial_eq_error_iff {row : Nat} {coefficient : α} {entries : List Int} :
    readMonomial dim row coefficient entries = .error fault ↔
      (entries.length ≠ dim ∧ fault = .unevenRow row dim entries.length) ∨
        (entries.length = dim ∧ ∃ var value, FirstFailing IsExponent entries var value ∧
          fault = .exponentOutOfRange row var value) := by
  unfold readMonomial
  by_cases even : entries.length = dim
  · rw [if_neg (not_not.mpr even)]
    simp only [bind_eq_error_iff, readExponents_eq_error_iff, even, ne_eq, not_true_eq_false,
      false_and, true_and, false_or, pure, Except.pure, reduceCtorEq, and_false, exists_false,
      or_false]
  · rw [if_pos even]
    simp [even, eq_comm, throw, throwThe, MonadExceptOf.throw, bind, Except.bind]

namespace SparsePoly

variable {coefficients : List α} {rows : List (List Int)} {options : BuildOptions}

/-- The faults, of which each excludes the others. -/
inductive RowsFault (coefficients : List α) (rows : List (List Int)) (options : BuildOptions) :
    Fault → Prop where
  | counts (different : coefficients.length ≠ rows.length) :
      RowsFault coefficients rows options (.countMismatch coefficients.length rows.length)
  | empty (counts : coefficients.length = rows.length) (none : rows = []) :
      RowsFault coefficients rows options .noMonomials
  | uneven {row : Nat} {entries : List Int} (counts : coefficients.length = rows.length)
      (offends : FirstFailing (ReadableRow (rows.headD []).length) rows row entries)
      (different : entries.length ≠ (rows.headD []).length) :
      RowsFault coefficients rows options
        (.unevenRow row (rows.headD []).length entries.length)
  | outOfRange {row var : Nat} {entries : List Int} {value : Int}
      (counts : coefficients.length = rows.length)
      (offends : FirstFailing (ReadableRow (rows.headD []).length) rows row entries)
      (length : entries.length = (rows.headD []).length)
      (beyond : FirstFailing IsExponent entries var value) :
      RowsFault coefficients rows options (.exponentOutOfRange row var value)
  | repeated {first second : Nat} (present : rows ≠ []) (readable : Readable coefficients rows)
      (checked : options.checked = true) (places : FirstRepeatAt rows first second) :
      RowsFault coefficients rows options (.repeatedExponents first second)

theorem ofMonomials_rowMonomials_eq_error_iff (present : rows ≠ [])
    (readable : Readable coefficients rows) :
    ofMonomials (rows.headD []).length (rowMonomials coefficients rows) options = .error fault ↔
      options.checked = true ∧ ∃ first second, FirstRepeatAt rows first second ∧
        fault = .repeatedExponents first second := by
  rw [ofMonomials_of_uniform (rowMonomials_ne_nil present readable)
    (dim_of_mem_rowMonomials readable), exponents_rowMonomials readable.counts]
  simp only [← firstRepeatAt_map_iff (readable_rows_inj readable), ← firstRepeat_eq_some_iff]
  cases options.checked with
  | false => simp
  | true =>
      cases firstRepeat (rows.map (List.map Int.toNat)) with
      | none => simp
      | some places => simp [Prod.ext_iff, eq_comm]

theorem mapM_readMonomial_eq_error_iff (counts : coefficients.length = rows.length) :
    (coefficients.zip rows).zipIdx.mapM (fun ((coefficient, entries), row) =>
        readMonomial dim row coefficient entries) = .error fault ↔
      ∃ row entries, FirstFailing (ReadableRow dim) rows row entries ∧
        ((entries.length ≠ dim ∧ fault = .unevenRow row dim entries.length) ∨
          (entries.length = dim ∧ ∃ var value, FirstFailing IsExponent entries var value ∧
            fault = .exponentOutOfRange row var value)) := by
  have succeeds (entry : α × List Int) (place : Nat) :
      ReadableRow dim entry.2 ↔ ∃ m, readMonomial dim place entry.1 entry.2 = .ok m := by
    simp [readMonomial_eq_ok_iff]
  have pairs (row : Nat) (entries : List Int) : FirstFailing (ReadableRow dim) rows row entries ↔
      ∃ pair : α × List Int, FirstFailing (fun entry => ReadableRow dim entry.2)
        (coefficients.zip rows) row pair ∧ pair.2 = entries := by
    rw [← firstFailing_map_iff, List.map_snd_zip (Nat.le_of_eq counts.symm)]
  rw [mapM_zipIdx_eq_error_iff succeeds]
  simp only [readMonomial_eq_error_iff, pairs, Nat.zero_add]
  constructor
  · intro refused
    rcases refused with ⟨row, pair, failing, wrong⟩
    exact ⟨row, pair.2, ⟨pair, failing, rfl⟩, wrong⟩
  · intro refused
    rcases refused with ⟨row, entries, ⟨pair, failing, rfl⟩, wrong⟩
    exact ⟨row, pair, failing, wrong⟩

theorem ofRows_eq_error_iff : ofRows coefficients rows options = .error fault ↔
    RowsFault coefficients rows options fault := by
  constructor
  · intro refused
    by_cases counts : coefficients.length = rows.length
    · by_cases present : rows ≠ []
      · rw [ofRows_of_counts counts present, bind_eq_error_iff] at refused
        rcases refused with unread | ⟨monomials, read, refused⟩
        · rcases (mapM_readMonomial_eq_error_iff counts).mp unread with ⟨row, entries, offends, wrong⟩
          rcases wrong with ⟨different, rfl⟩ | ⟨length, var, value, beyond, rfl⟩
          · exact RowsFault.uneven counts offends different
          · exact RowsFault.outOfRange counts offends length beyond
        · rcases (mapM_readMonomial_eq_ok_iff counts).mp read with ⟨fits, rfl⟩
          rcases (ofMonomials_rowMonomials_eq_error_iff present ⟨counts, fits⟩).mp refused with
            ⟨checked, first, second, places, rfl⟩
          exact RowsFault.repeated present ⟨counts, fits⟩ checked places
      · have empty : rows = [] := not_not.mp present
        subst empty
        unfold ofRows at refused
        rw [if_neg (not_not.mpr counts)] at refused
        cases refused
        exact RowsFault.empty counts rfl
    · unfold ofRows at refused
      rw [if_pos counts] at refused
      cases refused
      exact RowsFault.counts counts
  · intro wrong
    cases wrong with
    | counts different =>
        unfold ofRows
        rw [if_pos different]
    | empty counts none =>
        subst none
        unfold ofRows
        rw [if_neg (not_not.mpr counts)]
    | uneven counts offends different =>
        rw [ofRows_of_counts counts offends.ne_nil, bind_eq_error_iff,
          mapM_readMonomial_eq_error_iff counts]
        exact .inl ⟨_, _, offends, .inl ⟨different, rfl⟩⟩
    | outOfRange counts offends length beyond =>
        rw [ofRows_of_counts counts offends.ne_nil, bind_eq_error_iff,
          mapM_readMonomial_eq_error_iff counts]
        exact .inl ⟨_, _, offends, .inr ⟨length, _, _, beyond, rfl⟩⟩
    | repeated present readable checked places =>
        rw [ofRows_of_counts readable.counts present, bind_eq_error_iff]
        have read := (mapM_readMonomial_eq_ok_iff readable.counts).mpr ⟨readable.fits, rfl⟩
        have refused := (ofMonomials_rowMonomials_eq_error_iff present readable).mpr
          ⟨checked, _, _, places, rfl⟩
        exact .inr ⟨_, read, refused⟩

section
variable (coefficients rows options)

theorem rowsFault_countMismatch_iff (given listed : Nat) :
    RowsFault coefficients rows options (.countMismatch given listed) ↔
      coefficients.length ≠ rows.length ∧ given = coefficients.length ∧ listed = rows.length := by
  constructor
  · intro wrong
    cases wrong with
    | counts different => exact ⟨different, rfl, rfl⟩
  · intro wrong
    rcases wrong with ⟨different, rfl, rfl⟩
    exact RowsFault.counts different

theorem rowsFault_noMonomials_iff : RowsFault coefficients rows options .noMonomials ↔
    coefficients.length = rows.length ∧ rows = [] := by
  constructor
  · intro wrong
    cases wrong with
    | empty counts none => exact ⟨counts, none⟩
  · intro wrong
    exact RowsFault.empty wrong.1 wrong.2

theorem rowsFault_unevenRow_iff (row expected found : Nat) :
    RowsFault coefficients rows options (.unevenRow row expected found) ↔
      coefficients.length = rows.length ∧ ∃ entries,
        FirstFailing (ReadableRow (rows.headD []).length) rows row entries ∧
          entries.length ≠ (rows.headD []).length ∧
          expected = (rows.headD []).length ∧ found = entries.length := by
  constructor
  · intro wrong
    cases wrong with
    | uneven counts offends different => exact ⟨counts, _, offends, different, rfl, rfl⟩
  · intro wrong
    rcases wrong with ⟨counts, entries, offends, different, rfl, rfl⟩
    exact RowsFault.uneven counts offends different

theorem rowsFault_exponentOutOfRange_iff (row var : Nat) (value : Int) :
    RowsFault coefficients rows options (.exponentOutOfRange row var value) ↔
      coefficients.length = rows.length ∧ ∃ entries,
        FirstFailing (ReadableRow (rows.headD []).length) rows row entries ∧
          entries.length = (rows.headD []).length ∧
          FirstFailing IsExponent entries var value := by
  constructor
  · intro wrong
    cases wrong with
    | outOfRange counts offends length beyond => exact ⟨counts, _, offends, length, beyond⟩
  · intro wrong
    rcases wrong with ⟨counts, entries, offends, length, beyond⟩
    exact RowsFault.outOfRange counts offends length beyond

theorem rowsFault_repeatedExponents_iff (first second : Nat) :
    RowsFault coefficients rows options (.repeatedExponents first second) ↔
      rows ≠ [] ∧ Readable coefficients rows ∧ options.checked = true ∧
        FirstRepeatAt rows first second := by
  constructor
  · intro wrong
    cases wrong with
    | repeated present readable checked places => exact ⟨present, readable, checked, places⟩
  · intro wrong
    rcases wrong with ⟨present, readable, checked, places⟩
    exact RowsFault.repeated present readable checked places

end

theorem max?_eq_foldl {numbers : List Nat} (present : numbers ≠ []) :
    numbers.max? = some (numbers.foldl max 0) := by
  cases numbers with
  | nil => exact absurd rfl present
  | cons n rest => rw [List.max?_cons', List.foldl_cons, Nat.zero_max]

theorem degreeBounds_ofChecked {monomials : List (Monomial α)}
    (uniform : ∀ m ∈ monomials, m.dim = dim) :
    (ofChecked dim monomials options).degreeBounds = (List.range dim).map fun var =>
      ((arrange options monomials).map (Monomial.exponent · var)).foldl max 0 := by
  have lengths : ∀ m ∈ arrange options monomials, m.exponents.length = dim :=
    dim_of_mem_arrange options uniform
  have start : List.replicate dim 0 = (List.range dim).map fun _ => 0 := by
    simp
  rw [ofChecked, start, foldl_zipWith _ _ _ _ lengths]
  simp only [List.foldl_map]
  rfl

/-- The rows as they were given, in another order only if that was asked for. -/
structure HoldsRows (coefficients : List α) (rows : List (List Int)) (options : BuildOptions)
    (poly : SparsePoly α) : Prop where
  dim : poly.dim = (rows.headD []).length
  checked : poly.checked = options.checked
  monomials : ∃ monomials, poly.monomials.Perm monomials ∧
    (options.sort = false → poly.monomials = monomials) ∧
    monomials.map Monomial.coefficient = coefficients ∧
    monomials.map (fun m => m.exponents.map Int.ofNat) = rows
  bounds : poly.degreeBounds.length = poly.dim
  largest : ∀ var < poly.dim, (poly.monomials.map (Monomial.exponent · var)).max? =
    some (poly.degreeBounds.getD var 0)

theorem coefficient_rowMonomials (counts : coefficients.length = rows.length) :
    (rowMonomials coefficients rows).map Monomial.coefficient = coefficients := by
  rw [rowMonomials, List.map_map]
  exact List.map_fst_zip (Nat.le_of_eq counts)

theorem map_ofNat_rowMonomials (readable : Readable coefficients rows) :
    (rowMonomials coefficients rows).map (fun m => m.exponents.map Int.ofNat) = rows := by
  have vectors := congrArg (List.map (List.map Int.ofNat)) (exponents_rowMonomials readable.counts)
  rw [List.map_map, List.map_map] at vectors
  calc
    _ = rows.map (List.map Int.ofNat ∘ List.map Int.toNat) := vectors
    _ = rows.map id := by
      apply List.map_congr_left
      intro row listed
      exact map_ofNat_toNat fun value entry => ((readable.fits row listed).2 value entry).1
    _ = rows := List.map_id rows

theorem holdsRows_ofChecked (present : rows ≠ []) (readable : Readable coefficients rows) :
    HoldsRows coefficients rows options
      (ofChecked (rows.headD []).length (rowMonomials coefficients rows) options) where
  dim := rfl
  checked := rfl
  monomials := by
    refine ⟨rowMonomials coefficients rows, perm_arrange _ _, ?_,
      coefficient_rowMonomials readable.counts, map_ofNat_rowMonomials readable⟩
    intro unsorted
    simp [ofChecked, arrange, unsorted]
  bounds := by
    rw [degreeBounds_ofChecked (dim_of_mem_rowMonomials readable), List.length_map,
      List.length_range]
    rfl
  largest := by
    intro var below
    have inside : var < (rows.headD []).length := below
    have nonempty : arrange options (rowMonomials coefficients rows) ≠ [] := by
      intro empty
      have same := perm_arrange options (rowMonomials coefficients rows)
      exact rowMonomials_ne_nil present readable (List.nil_perm.mp (empty ▸ same))
    rw [degreeBounds_ofChecked (dim_of_mem_rowMonomials readable),
      List.getD_eq_getElem _ _ (by simpa using inside), List.getElem_map, List.getElem_range]
    exact max?_eq_foldl (List.map_eq_nil_iff.not.mpr nonempty)

theorem ofRows_eq_ok_iff_ofChecked {poly : SparsePoly α} :
    ofRows coefficients rows options = .ok poly ↔
      rows ≠ [] ∧ Readable coefficients rows ∧ (options.checked = true → rows.Nodup) ∧
        ofChecked (rows.headD []).length (rowMonomials coefficients rows) options = poly := by
  rw [ofRows_eq_ok_iff, ofMonomials_eq_ok_iff]
  constructor
  · intro built
    rcases built with ⟨present, readable, _, _, distinct, made⟩
    rw [nodup_rowMonomials_iff readable] at distinct
    exact ⟨present, readable, distinct, made⟩
  · intro built
    rcases built with ⟨present, readable, distinct, made⟩
    rw [← nodup_rowMonomials_iff readable] at distinct
    exact ⟨present, readable, rowMonomials_ne_nil present readable,
      dim_of_mem_rowMonomials readable, distinct, made⟩

theorem RowsFault.cases_fault (wrong : RowsFault coefficients rows options fault) :
    (∃ given listed, fault = .countMismatch given listed) ∨ fault = .noMonomials ∨
      (∃ row expected found, fault = .unevenRow row expected found) ∨
      (∃ row var value, fault = .exponentOutOfRange row var value) ∨
      ∃ first second, fault = .repeatedExponents first second := by
  cases wrong with
  | counts different => exact .inl ⟨_, _, rfl⟩
  | empty counts none => exact .inr (.inl rfl)
  | uneven counts offends different => exact .inr (.inr (.inl ⟨_, _, _, rfl⟩))
  | outOfRange counts offends length beyond => exact .inr (.inr (.inr (.inl ⟨_, _, _, rfl⟩)))
  | repeated present readable checked places => exact .inr (.inr (.inr (.inr ⟨_, _, rfl⟩)))

/-- Rows are refused for what is wrong with the first of them that cannot be read, then, if that is
looked for, for the first that is there already. All others are accepted and kept as they are. -/
theorem rows_checked_in_order (coefficients : List α) (rows : List (List Int))
    (options : BuildOptions) :
    (∀ given listed, ofRows coefficients rows options = .error (.countMismatch given listed) ↔
      coefficients.length ≠ rows.length ∧ given = coefficients.length ∧ listed = rows.length) ∧
    (ofRows coefficients rows options = .error .noMonomials ↔
      coefficients.length = rows.length ∧ rows = []) ∧
    (∀ row expected found,
      ofRows coefficients rows options = .error (.unevenRow row expected found) ↔
        coefficients.length = rows.length ∧ ∃ entries,
          FirstFailing (ReadableRow (rows.headD []).length) rows row entries ∧
            entries.length ≠ (rows.headD []).length ∧
            expected = (rows.headD []).length ∧ found = entries.length) ∧
    (∀ row var value,
      ofRows coefficients rows options = .error (.exponentOutOfRange row var value) ↔
        coefficients.length = rows.length ∧ ∃ entries,
          FirstFailing (ReadableRow (rows.headD []).length) rows row entries ∧
            entries.length = (rows.headD []).length ∧
            FirstFailing IsExponent entries var value) ∧
    (∀ first second,
      ofRows coefficients rows options = .error (.repeatedExponents first second) ↔
        rows ≠ [] ∧ Readable coefficients rows ∧ options.checked = true ∧
          FirstRepeatAt rows first second) ∧
    ((∃ poly, ofRows coefficients rows options = .ok poly) ↔
      rows ≠ [] ∧ Readable coefficients rows ∧ (options.checked = true → rows.Nodup)) ∧
    (∀ poly, ofRows coefficients rows options = .ok poly →
      HoldsRows coefficients rows options poly) ∧
    ∀ fault, ofRows coefficients rows options = .error fault →
      (∃ given listed, fault = .countMismatch given listed) ∨ fault = .noMonomials ∨
        (∃ row expected found, fault = .unevenRow row expected found) ∨
        (∃ row var value, fault = .exponentOutOfRange row var value) ∨
        ∃ first second, fault = .repeatedExponents first second := by
  simp only [ofRows_eq_error_iff]
  refine ⟨rowsFault_countMismatch_iff _ _ _, rowsFault_noMonomials_iff _ _ _,
    rowsFault_unevenRow_iff _ _ _, rowsFault_exponentOutOfRange_iff _ _ _,
    rowsFault_repeatedExponents_iff _ _ _, ?_, ?_, ?_⟩
  · simp only [ofRows_eq_ok_iff_ofChecked]
    constructor
    · intro built
      rcases built with ⟨poly, present, readable, distinct, _⟩
      exact ⟨present, readable, distinct⟩
    · intro accepted
      exact ⟨_, accepted.1, accepted.2.1, accepted.2.2, rfl⟩
  · intro poly built
    rcases ofRows_eq_ok_iff_ofChecked.mp built with ⟨present, readable, _, rfl⟩
    exact holdsRows_ofChecked present readable
  · exact fun fault wrong => wrong.cases_fault

example : ofRows [5, 3, 7] [[2, 1], [1, -4], [0]] .strict =
    .error (.exponentOutOfRange 1 1 (-4)) := by cbv

end SparsePoly

end NestedPoly
