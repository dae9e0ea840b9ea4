import Mathlib
import NestedPoly.Gather

/-! Gathering loses no entry.

While entries are looked at, the array has three parts: those with the property, those without, and
those still to be seen. An entry that has the property changes places with the first of the second
part, so the second part is rotated while the first grows in order. -/

namespace NestedPoly

variable {σ τ : Type}

theorem gatherFrom_present {property : τ → Bool} {last : Nat} {entries : Array τ} {position : Nat}
    (count : Nat) (before : position < last) (inside : position < entries.size)
    (present : property entries[position] = true) :
    gatherFrom property last entries count position =
      gatherFrom property last (entries.swapIfInBounds count position) (count + 1)
        (position + 1) := by
  rw [gatherFrom, dif_pos ⟨before, inside⟩, if_pos present]

theorem gatherFrom_absent {property : τ → Bool} {last : Nat} {entries : Array τ} {position : Nat}
    (count : Nat) (before : position < last) (inside : position < entries.size)
    (absent : ¬ property entries[position] = true) :
    gatherFrom property last entries count position =
      gatherFrom property last entries count (position + 1) := by
  rw [gatherFrom, dif_pos ⟨before, inside⟩, if_neg absent]

theorem gatherFrom_end {last : Nat} {entries : Array τ} {position : Nat} (property : τ → Bool)
    (count : Nat) (outside : ¬ (position < last ∧ position < entries.size)) :
    gatherFrom property last entries count position = (count, entries) := by
  rw [gatherFrom, dif_neg outside]

theorem swap_to_front (front middle tail : List τ) (x : τ) :
    (front ++ middle ++ x :: tail).toArray.swapIfInBounds front.length
        (front.length + middle.length) =
      (front ++ [x] ++ (middle.drop 1 ++ middle.take 1) ++ tail).toArray := by
  rw [Array.swapIfInBounds_def, dif_pos (by simp), dif_pos (by simp)]
  apply Array.ext'
  rw [Array.toList_swap]
  cases middle with
  | nil => simp
  | cons m middle => simp

theorem rotated_perm (entries : List τ) :
    (entries.drop 1 ++ entries.take 1).Perm entries :=
  List.perm_append_comm.trans (by rw [List.take_append_drop])

section
variable (property : τ → Bool) {last : Nat} (front middle tail : List τ) {x : τ}

/-- An entry with the property goes to the end of the front, and the middle is rotated past it. -/
theorem gatherFrom_front (before : front.length + middle.length < last)
    (present : property x = true) :
    gatherFrom property last (front ++ middle ++ x :: tail).toArray front.length
        (front.length + middle.length) =
      gatherFrom property last
        (front ++ [x] ++ (middle.drop 1 ++ middle.take 1) ++ tail).toArray
        (front ++ [x]).length ((front ++ [x]).length + (middle.drop 1 ++ middle.take 1).length) := by
  have inside : front.length + middle.length < (front ++ middle ++ x :: tail).toArray.size := by
    simp
  have position : (front ++ [x]).length + (middle.drop 1 ++ middle.take 1).length =
      front.length + middle.length + 1 := by
    rw [(rotated_perm middle).length_eq, List.length_append, List.length_singleton]
    omega
  rw [gatherFrom_present _ before inside (by simpa using present), swap_to_front, position,
    List.length_append, List.length_singleton]

theorem gatherFrom_middle (before : front.length + middle.length < last)
    (absent : property x = false) :
    gatherFrom property last (front ++ middle ++ x :: tail).toArray front.length
        (front.length + middle.length) =
      gatherFrom property last (front ++ (middle ++ [x]) ++ tail).toArray front.length
        (front.length + (middle ++ [x]).length) := by
  have inside : front.length + middle.length < (front ++ middle ++ x :: tail).toArray.size := by
    simp
  rw [gatherFrom_absent _ before inside (by simp [absent])]
  simp [Nat.add_assoc]

/-- Between `front` and `tail` lie the entries that were looked at and lack the property. -/
theorem gatherFrom_spec (whole : last = front.length + middle.length + tail.length)
    (lacking : ∀ x ∈ middle, property x = false) :
    ∃ back, back.Perm (middle ++ tail.filter (!property ·)) ∧
      gatherFrom property last (front ++ middle ++ tail).toArray front.length
          (front.length + middle.length) =
        (front.length + (tail.filter property).length,
          (front ++ tail.filter property ++ back).toArray) := by
  induction tail generalizing front middle with
  | nil =>
      refine ⟨middle, by simp, ?_⟩
      rw [gatherFrom_end property _ (by simp)]
      simp
  | cons x tail ih =>
      rw [List.length_cons] at whole
      have before : front.length + middle.length < last := by omega
      cases present : property x with
      | true =>
          -- The swap takes the first entry of the middle behind all the others.
          have rotated := rotated_perm middle
          have others : ∀ y ∈ middle.drop 1 ++ middle.take 1, property y = false :=
            fun y member => lacking y (rotated.mem_iff.mp member)
          have lengths : last = (front ++ [x]).length +
              (middle.drop 1 ++ middle.take 1).length + tail.length := by
            rw [rotated.length_eq, List.length_append, List.length_singleton]
            omega
          obtain ⟨back, same, run⟩ :=
            ih (front ++ [x]) (middle.drop 1 ++ middle.take 1) lengths others
          refine ⟨back, ?_, ?_⟩
          · rw [List.filter_cons_of_neg (by simp [present])]
            exact same.trans (rotated.append_right _)
          · rw [gatherFrom_front property front middle tail before present, run,
              List.filter_cons_of_pos present]
            simp
            omega
      | false =>
          have extended : ∀ y ∈ middle ++ [x], property y = false := by
            intro y member
            rcases List.mem_append.mp member with member | member
            · exact lacking y member
            · rw [List.mem_singleton.mp member]
              exact present
          have lengths : last = front.length + (middle ++ [x]).length + tail.length := by
            rw [List.length_append, List.length_singleton]
            omega
          obtain ⟨back, same, run⟩ := ih front (middle ++ [x]) lengths extended
          refine ⟨back, ?_, ?_⟩
          · rw [List.filter_cons_of_pos (by simp [present])]
            simpa using same
          · rw [gatherFrom_middle property front middle tail before present, run,
              List.filter_cons_of_neg (by simp [present])]

end

theorem gather_spec (property : τ → Bool) (entries : Array τ) :
    ∃ back, back.Perm (entries.toList.filter (!property ·)) ∧
      gather property entries =
        ((entries.toList.filter property).length,
          (entries.toList.filter property ++ back).toArray) := by
  have run := gatherFrom_spec property [] [] entries.toList
    (show entries.size = _ by simp) (by simp)
  simpa [gather] using run

theorem extract_gather_front (property : τ → Bool) (entries : Array τ) :
    ((gather property entries).2.extract 0 (gather property entries).1).toList =
      entries.toList.filter property := by
  obtain ⟨back, -, run⟩ := gather_spec property entries
  simp [run]

theorem extract_gather_back (property : τ → Bool) (entries : Array τ) :
    ((gather property entries).2.extract (gather property entries).1
        (gather property entries).2.size).toList.Perm (entries.toList.filter (!property ·)) := by
  obtain ⟨back, same, run⟩ := gather_spec property entries
  simpa [run] using same

theorem present_append_iff {property : τ → Bool} {front back : List τ}
    (having : ∀ x ∈ front, property x = true) (lacking : ∀ x ∈ back, property x = false) {i : Nat}
    (inside : i < (front ++ back).length) :
    property (front ++ back)[i] = true ↔ i < front.length := by
  by_cases before : i < front.length
  · rw [List.getElem_append_left before]
    exact iff_of_true (having _ (List.getElem_mem before)) before
  · have after : i - front.length < back.length := by
      rw [List.length_append] at inside
      omega
    rw [List.getElem_append_right (Nat.le_of_not_lt before)]
    exact iff_of_false (by simp [lacking _ (List.getElem_mem after)]) before

/-- Gathering counts the entries with the property and changes the order of the entries only. Those with
the property, and no others, have the first places, in the order that they had. -/
theorem gather_to_front (property : τ → Bool) (entries : Array τ) :
    (gather property entries).1 = entries.countP property ∧
    (gather property entries).2.Perm entries ∧
    (∀ (i : Nat) (inside : i < (gather property entries).2.size),
      property (gather property entries).2[i] = true ↔ i < (gather property entries).1) ∧
    ((gather property entries).2.extract 0 (gather property entries).1).toList =
      entries.toList.filter property := by
  obtain ⟨back, same, run⟩ := gather_spec property entries
  have having : ∀ x ∈ entries.toList.filter property, property x = true :=
    fun x member => (List.mem_filter.mp member).2
  have lacking : ∀ x ∈ back, property x = false := by
    intro x member
    have absent := (List.mem_filter.mp (same.mem_iff.mp member)).2
    simpa using absent
  refine ⟨?_, ?_, ?_, extract_gather_front property entries⟩
  · rw [run, ← Array.countP_toList, List.countP_eq_length_filter]
  · rw [run, Array.perm_iff_toList_perm]
    exact (same.append_left _).trans (List.filter_append_perm property entries.toList)
  · intro i inside
    simp only [run, List.getElem_toArray] at inside ⊢
    exact present_append_iff having lacking (by simpa using inside)

theorem map_swapIfInBounds (f : σ → τ) (entries : Array σ) (i j : Nat) :
    (entries.swapIfInBounds i j).map f = (entries.map f).swapIfInBounds i j := by
  rw [Array.swapIfInBounds_def, Array.swapIfInBounds_def]
  simp only [Array.size_map]
  split
  · split
    · apply Array.ext'
      simp [Array.toList_swap, List.map_set]
    · rfl
  · rfl

theorem mem_swapIfInBounds {entries : Array τ} {i j : Nat} {x : τ} :
    x ∈ entries.swapIfInBounds i j ↔ x ∈ entries := by
  rw [Array.swapIfInBounds_def]
  split
  · split
    · exact (Array.swap_perm _ _).mem_iff
    · rfl
  · rfl

theorem gatherFrom_map (property : τ → Bool) (f : σ → τ) (last : Nat) (entries : Array σ)
    (count position : Nat) :
    gatherFrom property last (entries.map f) count position =
      ((gatherFrom (property ∘ f) last entries count position).1,
        (gatherFrom (property ∘ f) last entries count position).2.map f) := by
  induction entries, count, position using gatherFrom.induct (property ∘ f) last with
  | case1 entries count position inside present ih =>
      rw [gatherFrom_present count inside.1 (by simpa using inside.2) (by simpa using present),
        gatherFrom_present count inside.1 inside.2 present, ← map_swapIfInBounds, ih]
  | case2 entries count position inside absent ih =>
      rw [gatherFrom_absent count inside.1 (by simpa using inside.2) (by simpa using absent),
        gatherFrom_absent count inside.1 inside.2 absent, ih]
  | case3 entries count position outside =>
      rw [gatherFrom_end property count (by simpa using outside),
        gatherFrom_end (property ∘ f) count outside]

theorem gatherFrom_congr {first second : τ → Bool} (last : Nat) (entries : Array τ)
    (count position : Nat) (agree : ∀ x ∈ entries, first x = second x) :
    gatherFrom first last entries count position =
      gatherFrom second last entries count position := by
  induction entries, count, position using gatherFrom.induct first last with
  | case1 entries count position inside present ih =>
      have same := agree _ (Array.getElem_mem inside.2)
      rw [gatherFrom_present count inside.1 inside.2 present,
        gatherFrom_present count inside.1 inside.2 (same ▸ present)]
      exact ih (fun x member => agree x (mem_swapIfInBounds.mp member))
  | case2 entries count position inside absent ih =>
      have same := agree _ (Array.getElem_mem inside.2)
      rw [gatherFrom_absent count inside.1 inside.2 absent,
        gatherFrom_absent count inside.1 inside.2 (same ▸ absent)]
      exact ih agree
  | case3 entries count position outside =>
      rw [gatherFrom_end first count outside, gatherFrom_end second count outside]

theorem getElem?_swapIfInBounds (entries : Array τ) {i j : Nat} (first : i < entries.size)
    (second : j < entries.size) (k : Nat) :
    (entries.swapIfInBounds i j)[k]? =
      if k = i then entries[j]? else if k = j then entries[i]? else entries[k]? := by
  rw [Array.swapIfInBounds_def, dif_pos first, dif_pos second]
  grind

theorem size_swapIfInBounds (entries : Array τ) (i j : Nat) :
    (entries.swapIfInBounds i j).size = entries.size := by
  simp

theorem extract_swapIfInBounds {entries : Array τ} {first last i j : Nat} (low : first ≤ i)
    (also : first ≤ j) (high : i < last) (alsoHigh : j < last) (fits : last ≤ entries.size) :
    (entries.swapIfInBounds i j).extract first last =
      (entries.extract first last).swapIfInBounds (i - first) (j - first) := by
  apply Array.ext_getElem?
  intro k
  rw [getElem?_swapIfInBounds _ (by simp; omega) (by simp; omega)]
  simp only [Array.getElem?_extract, size_swapIfInBounds,
    getElem?_swapIfInBounds entries (by omega : i < _) (by omega : j < _)]
  grind

section
variable {property : τ → Bool} {first last : Nat} {entries : Array τ} {count position : Nat}

@[simp] theorem size_gatherFrom (property : τ → Bool) (last : Nat) (entries : Array τ)
    (count position : Nat) :
    (gatherFrom property last entries count position).2.size = entries.size := by
  induction entries, count, position using gatherFrom.induct property last with
  | case1 entries count position inside present ih =>
      rw [gatherFrom_present count inside.1 inside.2 present, ih, size_swapIfInBounds]
  | case2 entries count position inside absent ih =>
      rw [gatherFrom_absent count inside.1 inside.2 absent, ih]
  | case3 entries count position outside => rw [gatherFrom_end property count outside]

theorem le_gatherFrom (property : τ → Bool) (last : Nat) (entries : Array τ)
    (count position : Nat) : count ≤ (gatherFrom property last entries count position).1 := by
  induction entries, count, position using gatherFrom.induct property last with
  | case1 entries count position inside present ih =>
      rw [gatherFrom_present count inside.1 inside.2 present]
      omega
  | case2 entries count position inside absent ih =>
      rw [gatherFrom_absent count inside.1 inside.2 absent]
      exact ih
  | case3 entries count position outside => rw [gatherFrom_end property count outside]

theorem gatherFrom_le (ordered : count ≤ position) (before : position ≤ last) :
    (gatherFrom property last entries count position).1 ≤ last := by
  induction entries, count, position using gatherFrom.induct property last with
  | case1 entries count position inside present ih =>
      rw [gatherFrom_present count inside.1 inside.2 present]
      exact ih (by omega) (by omega)
  | case2 entries count position inside absent ih =>
      rw [gatherFrom_absent count inside.1 inside.2 absent]
      exact ih (by omega) (by omega)
  | case3 entries count position outside =>
      rw [gatherFrom_end property count outside]
      omega

theorem getElem?_gatherFrom_outside (low : first ≤ count) (ordered : count ≤ position) {i : Nat}
    (outside : i < first ∨ last ≤ i) :
    (gatherFrom property last entries count position).2[i]? = entries[i]? := by
  induction entries, count, position using gatherFrom.induct property last with
  | case1 entries count position inside present ih =>
      rw [gatherFrom_present count inside.1 inside.2 present, ih (by omega) (by omega),
        getElem?_swapIfInBounds _ (by omega) inside.2, if_neg (by omega), if_neg (by omega)]
  | case2 entries count position inside absent ih =>
      rw [gatherFrom_absent count inside.1 inside.2 absent, ih low (by omega)]
  | case3 entries count position outside => rw [gatherFrom_end property count outside]

/-- Within the range, gathering does what it does with the range alone. -/
theorem gatherFrom_extract (low : first ≤ count) (ordered : count ≤ position)
    (fits : last ≤ entries.size) :
    gatherFrom property (last - first) (entries.extract first last) (count - first)
        (position - first) =
      ((gatherFrom property last entries count position).1 - first,
        (gatherFrom property last entries count position).2.extract first last) := by
  induction entries, count, position using gatherFrom.induct property last with
  | case1 entries count position inside present ih =>
      have next := ih (by omega) (by omega) (by simpa using fits)
      rw [extract_swapIfInBounds low (by omega) (by omega) inside.1 fits,
        Nat.sub_add_comm low, Nat.sub_add_comm (Nat.le_trans low ordered)] at next
      rw [gatherFrom_present count inside.1 inside.2 present, ← next]
      apply gatherFrom_present _ (by omega) (by simp; omega)
      grind
  | case2 entries count position inside absent ih =>
      have next := ih low (by omega) fits
      rw [Nat.sub_add_comm (Nat.le_trans low ordered)] at next
      rw [gatherFrom_absent count inside.1 inside.2 absent, ← next]
      apply gatherFrom_absent _ (by omega) (by simp; omega)
      grind
  | case3 entries count position outside =>
      rw [gatherFrom_end property count outside, gatherFrom_end property _ (by simp; omega)]

end

end NestedPoly
