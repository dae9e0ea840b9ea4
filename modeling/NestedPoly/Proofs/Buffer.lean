import Mathlib
import NestedPoly.Proofs.Branch
import NestedPoly.Proofs.Worklist

/-! Work in one buffer is work on separate branches.

The ranges that still wait lie one after the other in the buffer. A task changes the buffer within its
own range only, so each of the others reads the same terms as before, as if it held them itself. -/

namespace NestedPoly

variable {τ α : Type}

theorem extract_congr {entries others : Array τ} {first last : Nat}
    (sizes : entries.size = others.size)
    (agree : ∀ i, first ≤ i → i < last → entries[i]? = others[i]?) :
    entries.extract first last = others.extract first last := by
  apply Array.ext_getElem?
  intro i
  rw [Array.getElem?_extract, Array.getElem?_extract, sizes]
  split
  · exact agree _ (by omega) (by omega)
  · rfl

theorem getElem?_changeFrom (change : τ → τ) (last : Nat) (entries : Array τ) (position i : Nat) :
    (changeFrom change last entries position)[i]? =
      if position ≤ i ∧ i < last then entries[i]?.map change else entries[i]? := by
  induction entries, position using changeFrom.induct change last with
  | case1 entries position before ih =>
      rw [changeFrom, if_pos before, ih, Array.getElem?_modify]
      grind
  | case2 entries position past =>
      rw [changeFrom, if_neg past, if_neg (by omega)]

@[simp] theorem size_changeFrom (change : τ → τ) (last : Nat) (entries : Array τ) (position : Nat) :
    (changeFrom change last entries position).size = entries.size := by
  induction entries, position using changeFrom.induct change last with
  | case1 entries position before ih => rw [changeFrom, if_pos before, ih, Array.size_modify]
  | case2 entries position past => rw [changeFrom, if_neg past]

theorem extract_changeFrom (change : τ → τ) (first last : Nat) (entries : Array τ) :
    (changeFrom change last entries first).extract first last =
      (entries.extract first last).map change := by
  apply Array.ext_getElem?
  intro i
  rw [Array.getElem?_map, Array.getElem?_extract, Array.getElem?_extract, size_changeFrom]
  split
  · rw [getElem?_changeFrom, if_pos (by omega)]
  · rfl

def RangeTask.range? : RangeTask → Option (Nat × Nat)
  | split first last => some (first, last)
  | join .. => none

def RangeTask.view (buffer : Array (Term α)) : RangeTask → Task α
  | split first last => .split (buffer.extract first last)
  | join var power hasRest => .join var power hasRest

theorem map_view_congr {buffer other : Array (Term α)} {tasks : List RangeTask}
    (agree : ∀ range ∈ tasks.filterMap RangeTask.range?,
      buffer.extract range.1 range.2 = other.extract range.1 range.2) :
    tasks.map (RangeTask.view buffer) = tasks.map (RangeTask.view other) := by
  apply List.map_congr_left
  intro task member
  cases task with
  | split first last =>
      have same := agree (first, last) (List.mem_filterMap.mpr ⟨_, member, rfl⟩)
      rw [RangeTask.view, RangeTask.view, same]
  | join var power hasRest => rfl

namespace BufferBench

variable {coding : Option PrimeCoding} {dim first last var : Nat}

def ranges (bench : BufferBench α) : List (Nat × Nat) := bench.tasks.filterMap RangeTask.range?

/-- The bench with the terms of each range taken out of the buffer. -/
def view (bench : BufferBench α) : Workbench α :=
  ⟨bench.tasks.map (RangeTask.view bench.buffer), bench.built, bench.splits⟩

/-- No two of the pending ranges have a position in common, and all lie in the buffer. -/
structure Apart (bench : BufferBench α) : Prop where
  ordered : bench.ranges.Pairwise fun range later => range.2 ≤ later.1
  within : ∀ range ∈ bench.ranges, range.1 ≤ range.2 ∧ range.2 ≤ bench.buffer.size

def middle (bench : BufferBench α) (coding : Option PrimeCoding) (first last var : Nat) : Nat :=
  (gatherFrom (Term.contains coding var) last bench.buffer first first).1

/-- The terms of a range that have the variable, before they are divided. -/
def inside (bench : BufferBench α) (coding : Option PrimeCoding) (first last var : Nat) :
    Array (Term α) :=
  (gatherFrom (Term.contains coding var) last bench.buffer first first).2.extract first
    (bench.middle coding first last var)

theorem le_middle (bench : BufferBench α) (coding : Option PrimeCoding) (first last var : Nat) :
    first ≤ bench.middle coding first last var :=
  le_gatherFrom _ _ _ _ _

theorem middle_le (bench : BufferBench α) (coding : Option PrimeCoding) (var : Nat)
    (ordered : first ≤ last) :
    bench.middle coding first last var ≤ last :=
  gatherFrom_le (Nat.le_refl _) ordered

@[simp] theorem size_divide (bench : BufferBench α) (coding : Option PrimeCoding)
    (first last var : Nat) :
    (bench.divide coding first last var).buffer.size = bench.buffer.size := by
  simp [divide]

theorem getElem?_divide_outside (bench : BufferBench α) (ordered : first ≤ last) {i : Nat}
    (outside : i < first ∨ last ≤ i) :
    (bench.divide coding first last var).buffer[i]? = bench.buffer[i]? := by
  have high := bench.middle_le coding var ordered
  rw [middle] at high
  simp only [divide]
  rw [getElem?_changeFrom, if_neg (by omega),
    getElem?_gatherFrom_outside (Nat.le_refl _) (Nat.le_refl _) outside]

theorem extract_divide_later (bench : BufferBench α) (ordered : first ≤ last) {range : Nat × Nat}
    (later : last ≤ range.1) :
    (bench.divide coding first last var).buffer.extract range.1 range.2 =
      bench.buffer.extract range.1 range.2 := by
  apply extract_congr (size_divide ..)
  intro i above _
  exact bench.getElem?_divide_outside ordered (.inr (Nat.le_trans later above))

section
variable (bench : BufferBench α) (coding : Option PrimeCoding) (var : Nat)
  (ordered : first ≤ last) (fits : last ≤ bench.buffer.size)
include ordered fits

theorem gather_extract (property : Term α → Bool) :
    gather property (bench.buffer.extract first last) =
      ((gatherFrom property last bench.buffer first first).1 - first,
        (gatherFrom property last bench.buffer first first).2.extract first last) := by
  have alone := @gatherFrom_extract _ property _ _ _ _ _ (Nat.le_refl first) (Nat.le_refl first) fits
  rw [Nat.sub_self] at alone
  rw [gather, ← alone]
  congr 1
  simp
  omega

theorem inside_eq :
    (sides coding var (bench.buffer.extract first last)).1 = bench.inside coding first last var := by
  have low := bench.le_middle coding first last var
  have high := bench.middle_le coding var ordered
  rw [sides, bench.gather_extract ordered fits, ← middle, inside]
  dsimp only
  rw [Array.extract_extract]
  congr 1
  omega

theorem outside_eq :
    (sides coding var (bench.buffer.extract first last)).2 =
      (gatherFrom (Term.contains coding var) last bench.buffer first first).2.extract
        (bench.middle coding first last var) last := by
  have low := bench.le_middle coding first last var
  have high := bench.middle_le coding var ordered
  rw [sides, bench.gather_extract ordered fits, ← middle]
  dsimp only
  rw [Array.extract_extract]
  congr 1
  · omega
  · simp
    omega

theorem extract_divide_inside :
    (bench.divide coding first last var).buffer.extract first
        (bench.middle coding first last var) =
      (sides coding var (bench.buffer.extract first last)).1.map (Term.divide coding var
        (smallestPower var (sides coding var (bench.buffer.extract first last)).1)) := by
  rw [bench.inside_eq coding var ordered fits]
  exact extract_changeFrom _ _ _ _

theorem extract_divide_outside :
    (bench.divide coding first last var).buffer.extract
        (bench.middle coding first last var) last =
      (sides coding var (bench.buffer.extract first last)).2 := by
  rw [bench.outside_eq coding var ordered fits]
  apply extract_congr
  · simp
  · intro i low _
    simp only [divide]
    rw [getElem?_changeFrom, if_neg (by rw [middle] at low; omega)]

theorem size_inside_eq :
    (sides coding var (bench.buffer.extract first last)).1.size =
      bench.middle coding first last var - first := by
  have high := bench.middle_le coding var ordered
  rw [bench.inside_eq coding var ordered fits, inside]
  simp
  omega

theorem size_outside_eq :
    (sides coding var (bench.buffer.extract first last)).2.size =
      last - bench.middle coding first last var := by
  rw [bench.outside_eq coding var ordered fits]
  simp
  omega

theorem divide_eq :
    bench.divide coding first last var =
      { bench with
        buffer := (bench.divide coding first last var).buffer
        tasks := .split first (bench.middle coding first last var) ::
          ((if decide (bench.middle coding first last var < last) then
              [.split (bench.middle coding first last var) last] else []) ++
            [.join var (smallestPower var (sides coding var (bench.buffer.extract first last)).1)
              (decide (bench.middle coding first last var < last))]) ++ bench.tasks
        splits := ⟨var, smallestPower var (sides coding var (bench.buffer.extract first last)).1,
          bench.middle coding first last var - first,
          last - bench.middle coding first last var⟩ :: bench.splits } := by
  rw [bench.inside_eq coding var ordered fits]
  rfl

/-- Dividing a range is dividing the branch that it holds. -/
theorem view_divide (later : ∀ range ∈ bench.ranges, last ≤ range.1) :
    (bench.divide coding first last var).view =
      bench.view.divide coding (bench.buffer.extract first last) var := by
  have inside := bench.extract_divide_inside coding var ordered fits
  have outside := bench.extract_divide_outside coding var ordered fits
  have insideSize := bench.size_inside_eq coding var ordered fits
  have outsideSize := bench.size_outside_eq coding var ordered fits
  -- The ranges that wait lie behind this one, where nothing is changed.
  have others : bench.tasks.map (RangeTask.view (bench.divide coding first last var).buffer) =
      bench.tasks.map (RangeTask.view bench.buffer) := by
    apply map_view_congr
    intro range member
    exact bench.extract_divide_later ordered (later range member)
  by_cases rest : bench.middle coding first last var < last
  · rw [divide_parted _ (by omega : (sides coding var (bench.buffer.extract first last)).2.size ≠ 0),
      outsideSize, insideSize, factoredBranch, ← inside, ← outside, view,
      bench.divide_eq coding var ordered fits]
    simp [rest, others, view, RangeTask.view]
  · rw [divide_whole _ (by omega : (sides coding var (bench.buffer.extract first last)).2.size = 0),
      insideSize, factoredBranch, ← inside, view, bench.divide_eq coding var ordered fits]
    have nothing : last - bench.middle coding first last var = 0 := by omega
    simp [rest, others, view, RangeTask.view, nothing]

end

theorem settle_view (bench : BufferBench α) (result : Except Fault (Builder α)) :
    bench.view.settle result = Prod.map view id (bench.settle result) := by
  cases result <;> rfl

theorem perform_view (bench : BufferBench α) (task : RangeTask)
    (apart : Apart { bench with tasks := task :: bench.tasks }) :
    bench.view.perform coding dim (task.view bench.buffer) =
      Prod.map view id (bench.perform coding dim task) := by
  cases task with
  | join var power hasRest => exact bench.settle_view _
  | split first last =>
      obtain ⟨ordered, fits⟩ := apart.within (first, last) List.mem_cons_self
      have later : ∀ range ∈ bench.ranges, last ≤ range.1 := (List.pairwise_cons.mp apart.ordered).1
      rcases entries : (bench.buffer.extract first last).toList with _ | ⟨term, _ | ⟨next, others⟩⟩
      case cons.nil =>
        simp only [RangeTask.view, Workbench.perform, perform, entries]
        exact bench.settle_view _
      all_goals
        simp only [RangeTask.view, Workbench.perform, perform, entries]
        cases heaviest (exponentSums dim (bench.buffer.extract first last)) with
        | none => rfl
        | some var =>
            simp only [Prod.map, ← bench.view_divide coding var ordered fits later]
            rfl

theorem step_view (bench : BufferBench α) (apart : bench.Apart) :
    bench.view.step coding dim = (bench.step coding dim).map (Prod.map view id) := by
  obtain ⟨buffer, tasks, built, splits⟩ := bench
  cases tasks with
  | nil => rfl
  | cons task tasks => exact congrArg some (perform_view ⟨buffer, tasks, built, splits⟩ task apart)

theorem ranges_divide (bench : BufferBench α) (coding : Option PrimeCoding) (first last var : Nat) :
    (bench.divide coding first last var).ranges =
      (first, bench.middle coding first last var) ::
        ((if bench.middle coding first last var < last then
            [(bench.middle coding first last var, last)] else []) ++ bench.ranges) := by
  unfold middle
  by_cases rest : (gatherFrom (Term.contains coding var) last bench.buffer first first).1 < last
  · simp [ranges, divide, RangeTask.range?, rest]
    rfl
  · simp [ranges, divide, RangeTask.range?, rest]
    rfl

theorem apart_divide (bench : BufferBench α) (apart : bench.Apart) (ordered : first ≤ last)
    (fits : last ≤ bench.buffer.size) (later : ∀ range ∈ bench.ranges, last ≤ range.1) :
    (bench.divide coding first last var).Apart := by
  have low := bench.le_middle coding first last var
  have high := bench.middle_le coding var ordered
  have parts := bench.ranges_divide coding first last var
  have after : ∀ range ∈ bench.ranges, bench.middle coding first last var ≤ range.1 :=
    fun range member => Nat.le_trans high (later range member)
  constructor
  · rw [parts]
    split
    · simp only [List.cons_append, List.nil_append, List.pairwise_cons, List.forall_mem_cons]
      exact ⟨⟨Nat.le_refl _, after⟩, later, apart.ordered⟩
    · exact List.pairwise_cons.mpr ⟨after, apart.ordered⟩
  · rw [parts, size_divide]
    split
    · simp only [List.cons_append, List.nil_append, List.forall_mem_cons]
      exact ⟨⟨low, Nat.le_trans high fits⟩, ⟨high, fits⟩, apart.within⟩
    · exact List.forall_mem_cons.mpr ⟨⟨low, Nat.le_trans high fits⟩, apart.within⟩

theorem eq_of_settle {bench after : BufferBench α} {result : Except Fault (Builder α)}
    (settled : bench.settle result = (after, none)) : ∃ built, after = { bench with built } := by
  cases result with
  | error fault => cases settled
  | ok built =>
      cases settled
      exact ⟨built, rfl⟩

theorem step_cases {bench after : BufferBench α}
    (taken : bench.step coding dim = some (after, none)) :
    ∃ task tasks, bench.tasks = task :: tasks ∧
      ((∃ built, after = { bench with tasks, built }) ∨
        ∃ first last var, task = .split first last ∧
          after = divide { bench with tasks } coding first last var) := by
  obtain ⟨buffer, tasks, built, splits⟩ := bench
  cases tasks with
  | nil => cases taken
  | cons task tasks =>
      refine ⟨task, tasks, rfl, ?_⟩
      have done := Option.some.inj taken
      cases task with
      | join var power hasRest => exact .inl (eq_of_settle done)
      | split first last =>
          rcases entries : (buffer.extract first last).toList with _ | ⟨term, _ | ⟨next, others⟩⟩
          case cons.nil =>
            simp only [perform, entries] at done
            exact .inl (eq_of_settle done)
          all_goals
            simp only [perform, entries] at done
            cases heavy : heaviest (exponentSums dim (buffer.extract first last)) with
            | none => simp [heavy] at done
            | some var =>
                simp only [heavy, Prod.mk.injEq, and_true] at done
                exact .inr ⟨first, last, var, rfl, done.symm⟩

section
variable {bench after : BufferBench α} (taken : bench.step coding dim = some (after, none))
  (apart : bench.Apart)
include taken apart

/-- No task brings two of the pending ranges together. -/
theorem apart_of_step : after.Apart := by
  obtain ⟨task, tasks, rest, changed⟩ := step_cases taken
  obtain ⟨ordered, within⟩ := apart
  rw [ranges, rest] at ordered within
  -- A task that is done gives up its range, a division puts two parts of it side by side.
  rcases changed with ⟨built, rfl⟩ | ⟨first, last, var, rfl, rfl⟩
  · cases task with
    | join var power hasRest => exact ⟨ordered, within⟩
    | split first last =>
        exact ⟨(List.pairwise_cons.mp ordered).2,
          fun range member => within range (List.mem_cons_of_mem _ member)⟩
  · obtain ⟨later, others⟩ := List.pairwise_cons.mp ordered
    obtain ⟨proper, fits⟩ := within (first, last) List.mem_cons_self
    exact apart_divide _ ⟨others, fun range member => within range (List.mem_cons_of_mem _ member)⟩
      proper fits later

/-- What waits in the other ranges stays as it is. -/
theorem extract_of_step {first last : Nat} (pending : RangeTask.split first last ∈ bench.tasks.tail) :
    after.buffer.extract first last = bench.buffer.extract first last := by
  obtain ⟨task, tasks, rest, changed⟩ := step_cases taken
  obtain ⟨ordered, within⟩ := apart
  rw [ranges, rest] at ordered within
  rw [rest, List.tail_cons] at pending
  rcases changed with ⟨built, rfl⟩ | ⟨low, high, var, rfl, rfl⟩
  · rfl
  · have later := (List.pairwise_cons.mp ordered).1 (first, last)
      (List.mem_filterMap.mpr ⟨_, pending, rfl⟩)
    exact extract_divide_later _ (within (low, high) List.mem_cons_self).1 later

end

theorem apart_start (terms : Array (Term α)) : (start terms).Apart :=
  ⟨List.pairwise_singleton _ _, by simp [start, ranges, RangeTask.range?]⟩

theorem view_start (terms : Array (Term α)) : (start terms).view = Workbench.start terms := by
  simp [start, view, RangeTask.view, Workbench.start]

def Reaches (coding : Option PrimeCoding) (dim : Nat) : BufferBench α → BufferBench α → Prop :=
  Passes (step coding dim)

theorem view_of_reaches {terms : Array (Term α)} {bench : BufferBench α}
    (reached : Reaches coding dim (start terms) bench) :
    Workbench.Reaches coding dim (Workbench.start terms) bench.view ∧ bench.Apart := by
  rw [← view_start]
  exact passes_view step_view apart_of_step (apart_start terms) reached

/-- Building in one buffer is building from separate branches. -/
theorem build_view (coding : Option PrimeCoding) (dim : Nat) (terms : Array (Term α)) :
    buildNodes coding dim terms = Prod.map view id (build coding dim terms) := by
  rw [buildNodes, ← view_start]
  exact runSteps_view step_view apart_of_step _ (apart_start terms)

end BufferBench

end NestedPoly
