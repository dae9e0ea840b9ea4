import Mathlib
import NestedPoly.Proofs.Build

/-! How work fails.

Terms with equal exponents are divided alike and stay together, and different ones stay different,
so that in each branch the terms that share a vector are those that shared one at the start. When a
branch of several terms has no variable left they all share one, and its two first positions are
reported. Otherwise it is only for lack of room that work does not come to its end. -/

namespace NestedPoly

variable {α : Type} {dim var : Nat} {monomials : List (Monomial α)}

def RepeatedAt (vectors : List (List Nat)) (first second : Nat) : Prop :=
  first < second ∧ ∃ vector, vectors[first]? = some vector ∧ vectors[second]? = some vector ∧
    ∀ i < second, vectors[i]? = some vector → i = first

def positionsOf (exponents : List Nat) (terms : List (Term α)) : List Nat :=
  (terms.filter (·.exponents = exponents)).map Term.position

/-- The fault names the first two terms that have the exponents of a certain one. -/
def NamesRepeat (terms : List (Term α)) (fault : Fault) : Prop :=
  ∃ term ∈ terms, 2 ≤ (positionsOf term.exponents terms).length ∧
    fault = firstTwo (positionsOf term.exponents terms)

theorem mergeSort_eq_of_perm {first second : List Nat} (same : first.Perm second) :
    first.mergeSort = second.mergeSort := by
  have sorted (l : List Nat) : l.mergeSort.Pairwise (· ≤ ·) := by
    have ordered := @List.pairwise_mergeSort Nat (fun a b => decide (a ≤ b)) (by simp; omega)
      (by simp; omega) l
    simpa using ordered
  apply List.Perm.eq_of_pairwise _ (sorted first) (sorted second)
  · exact (List.mergeSort_perm _ _).trans (same.trans (List.mergeSort_perm _ _).symm)
  · intro a b _ _
    exact Nat.le_antisymm

theorem firstTwo_perm {first second : List Nat} (same : first.Perm second) :
    firstTwo first = firstTwo second := by
  rw [firstTwo, firstTwo, mergeSort_eq_of_perm same]

theorem exists_firstTwo_eq {positions : List Nat} (two : 2 ≤ positions.length) :
    ∃ first second, firstTwo positions = .repeatedExponents first second := by
  have sorted : positions.mergeSort.length = positions.length := List.length_mergeSort _
  rcases entries : positions.mergeSort with _ | ⟨first, _ | ⟨second, others⟩⟩
  · simp [entries] at sorted
    omega
  · simp [entries] at sorted
    omega
  · exact ⟨first, second, by simp only [firstTwo, entries]⟩

theorem namesRepeat_of_part {part whole : List (Term α)} {fault : Fault}
    (same : ∀ t ∈ part, ∃ s ∈ whole,
      (positionsOf t.exponents part).Perm (positionsOf s.exponents whole))
    (named : NamesRepeat part fault) : NamesRepeat whole fault := by
  obtain ⟨t, member, two, rfl⟩ := named
  obtain ⟨s, inside, together⟩ := same t member
  refine ⟨s, inside, ?_, firstTwo_perm together⟩
  rw [← together.length_eq]
  exact two

theorem positionsOf_rest_perm {branch : Array (Term α)} {t : Term α}
    (member : t ∈ (sides none var branch).2.toList) :
    (positionsOf t.exponents (sides none var branch).2.toList).Perm
      (positionsOf t.exponents branch.toList) := by
  have lacking := toList_outside_perm none var branch
  have zero := (List.mem_filter.mp (lacking.mem_iff.mp member)).2
  apply ((lacking.filter _).map _).trans
  apply List.Perm.of_eq
  rw [positionsOf, List.filter_filter]
  congr 1
  apply List.filter_congr
  intro s _
  by_cases equal : s.exponents = t.exponents
  · have alike : s.exponent var = t.exponent var := by rw [Term.exponent, equal, Term.exponent]
    simp only [Term.contains_none, alike] at zero ⊢
    simp [equal, zero]
  · simp [equal]

theorem positionsOf_factoredBranch {branch : Array (Term α)} {s : Term α}
    (member : s ∈ (sides none var branch).1) :
    positionsOf (s.divide none var (smallestPower var (sides none var branch).1)).exponents
        (factoredBranch none var branch).toList =
      positionsOf s.exponents branch.toList := by
  have inside := toList_inside none var branch
  have contained : 0 < s.exponent var := by
    have listed := Array.mem_toList_iff.mpr member
    rw [inside] at listed
    simpa using (List.mem_filter.mp listed).2
  rw [positionsOf, positionsOf, factoredBranch, Array.toList_map, List.filter_map, List.map_map,
    inside, List.filter_filter]
  apply congrArg (List.map Term.position)
  apply List.filter_congr
  intro u listed
  -- Terms agree after division exactly if they have the variable and agreed before.
  have agree : (u.divide none var (smallestPower var (sides none var branch).1)).exponents =
      (s.divide none var (smallestPower var (sides none var branch).1)).exponents ∧
        0 < u.exponent var ↔ u.exponents = s.exponents := by
    constructor
    · rintro ⟨equal, present⟩
      have uInside : u ∈ (sides none var branch).1 := by
        rw [← Array.mem_toList_iff, inside]
        exact List.mem_filter.mpr ⟨listed, by simpa using present⟩
      exact modify_sub_inj (smallestPower_le uInside) (smallestPower_le member) equal
    · intro equal
      refine ⟨?_, ?_⟩
      · rw [Term.divide, Term.divide, equal]
      · rw [Term.exponent, equal]
        exact contained
  rw [Bool.eq_iff_iff]
  simpa using agree

theorem namesRepeat_of_rest {branch : Array (Term α)} {fault : Fault}
    (named : NamesRepeat (sides none var branch).2.toList fault) :
    NamesRepeat branch.toList fault := by
  apply namesRepeat_of_part _ named
  intro t member
  refine ⟨t, ?_, positionsOf_rest_perm member⟩
  exact List.mem_of_mem_filter ((toList_outside_perm none var branch).mem_iff.mp member)

theorem namesRepeat_of_factoredBranch {branch : Array (Term α)} {fault : Fault}
    (named : NamesRepeat (factoredBranch none var branch).toList fault) :
    NamesRepeat branch.toList fault := by
  apply namesRepeat_of_part _ named
  intro t member
  rw [factoredBranch, Array.toList_map] at member
  obtain ⟨s, inside, rfl⟩ := List.mem_map.mp member
  refine ⟨s, ?_, List.Perm.of_eq (positionsOf_factoredBranch (Array.mem_toList_iff.mp inside))⟩
  rw [toList_inside] at inside
  exact List.mem_of_mem_filter inside

theorem two_le_size {branch : Array (Term α)} (several : ∀ m, monomials ≠ [m])
    (present : monomials ≠ []) (same : (residuals branch).Perm monomials) : 2 ≤ branch.size := by
  rw [size_eq_length same]
  have nonempty := List.length_pos_iff.mpr present
  have single : monomials.length ≠ 1 := by
    intro one
    obtain ⟨m, only⟩ := List.length_eq_one_iff.mp one
    exact several m only
  omega

theorem namesRepeat_of_stuck {branch : Array (Term α)}
    (several : ∀ m, monomials ≠ [m]) (present : monomials ≠ [])
    (stuck : (Rule.wrapped α dim).choose monomials = none)
    (uniform : ∀ m ∈ monomials, m.dim = dim) (same : (residuals branch).Perm monomials)
    (fit : SumsFit monomials) : NamesRepeat branch.toList (repeated branch) := by
  have zero : ∀ term ∈ branch.toList, term.exponents = List.replicate dim 0 := by
    intro term member
    have left : term.monomial ∈ monomials :=
      same.mem_iff.mp (List.mem_map.mpr ⟨term, member, rfl⟩)
    exact exponents_of_stuck_wrapped uniform left fit stuck
  have two := two_le_size several present same
  rw [← Array.length_toList] at two
  obtain ⟨term, member⟩ := List.exists_mem_of_length_pos (by omega : 0 < branch.toList.length)
  have all : positionsOf term.exponents branch.toList = branch.toList.map Term.position := by
    rw [positionsOf, List.filter_eq_self.mpr]
    intro other listed
    simp [zero term member, zero other listed]
  refine ⟨term, member, ?_, ?_⟩
  · rw [all, List.length_map]
    exact two
  · rw [all, repeated]

/-- What keeps the monomials of a branch from being brought into nested form, when there are `size` nodes
before: there are more nodes than there is room for, or two of the terms have the same exponents. -/
inductive Obstacle (monomials : List (Monomial α)) (branch : Array (Term α)) (size : Nat) :
    Fault → Prop where
  | crowded (more : nodeLimit < size + weight monomials) :
      Obstacle monomials branch size .treeFull
  | alike {first second : Nat}
      (named : SumsFit monomials → NamesRepeat branch.toList (.repeatedExponents first second)) :
      Obstacle monomials branch size (.repeatedExponents first second)

/-- Whatever else is on the bench, this much work ends with a fault. -/
def Refused (dim : Nat) (monomials : List (Monomial α)) (branch : Array (Term α))
    (nodes : Array (Node α)) (budget : Nat) : Prop :=
  ∀ fuel ≥ budget, ∀ tasks waiting splits, ∃ after fault,
    work dim fuel ⟨.split branch :: tasks, ⟨nodes, waiting⟩, splits⟩ = (after, some fault) ∧
      Obstacle monomials branch nodes.size fault

def Blocked (dim size : Nat) (monomials : List (Monomial α)) : Prop :=
  ∀ nest, greedy (Rule.wrapped α dim) monomials = some nest → nodeLimit < size + nest.countNodes

section
variable {branch : Array (Term α)} {nodes : Array (Node α)} {budget : Nat} {factored : Nest α}

theorem refused_mono {more : Nat} (refused : Refused dim monomials branch nodes budget)
    (le : budget ≤ more) : Refused dim monomials branch nodes more := by
  intro fuel enough
  exact refused fuel (Nat.le_trans le enough)

theorem refused_of_single {m : Monomial α} (same : (residuals branch).Perm [m])
    (full : nodeLimit < nodes.size + 1) : Refused dim [m] branch nodes 1 := by
  intro fuel enough tasks waiting splits
  obtain ⟨fuel, rfl⟩ : ∃ less, fuel = less + 1 := ⟨fuel - 1, by omega⟩
  obtain ⟨term, single, -⟩ := exists_single_term same
  have refused : (Builder.mk nodes waiting).leaf term = .error .treeFull :=
    Builder.place_of_full (Nat.not_lt.mpr (Nat.le_of_lt_succ full)) _ _
  refine ⟨⟨tasks, ⟨nodes, waiting⟩, splits⟩, .treeFull, work_fault fuel ?_, Obstacle.crowded ?_⟩
  · rw [Workbench.perform_single _ single, refused]
    rfl
  · have := length_le_weight [m]
    rw [List.length_singleton] at this
    omega

theorem refused_of_stuck (several : ∀ term, branch.toList ≠ [term]) (two : 2 ≤ branch.size)
    (stuck : heaviest (exponentSums dim branch) = none)
    (named : SumsFit monomials → NamesRepeat branch.toList (repeated branch)) :
    Refused dim monomials branch nodes 1 := by
  intro fuel enough tasks waiting splits
  obtain ⟨fuel, rfl⟩ : ∃ less, fuel = less + 1 := ⟨fuel - 1, by omega⟩
  obtain ⟨first, second, pair⟩ : ∃ first second, repeated branch = .repeatedExponents first second :=
    exists_firstTwo_eq (by simpa using two)
  rw [pair] at named
  refine ⟨⟨tasks, ⟨nodes, waiting⟩, splits⟩, .repeatedExponents first second, work_fault fuel ?_,
    Obstacle.alike named⟩
  rw [← pair]
  exact Workbench.perform_stuck _ several stuck

variable (uniform : ∀ m ∈ monomials, m.dim = dim) (same : (residuals branch).Perm monomials)
  (several : ∀ m, monomials ≠ [m]) (leading : (Rule.wrapped α dim).choose monomials = some var)
include uniform same several leading

theorem refused_of_factoredBranch
    (refused : Refused dim (quotients var monomials) (factoredBranch none var branch) nodes budget) :
    Refused dim monomials branch nodes (budget + 1) := by
  intro fuel enough tasks waiting splits
  obtain ⟨fuel, rfl⟩ : ∃ less, fuel = less + 1 := ⟨fuel - 1, by omega⟩
  obtain ⟨after, fault, failed, obstacle⟩ := refused fuel (by omega) _ waiting _
  refine ⟨after, fault, (work_leading same uniform several leading _ _ _ _).trans failed, ?_⟩
  have lighter := weight_sides_lt ((Rule.wrapped α dim).occurs leading)
  cases obstacle with
  | crowded more => exact Obstacle.crowded (by omega)
  | alike named =>
      exact Obstacle.alike fun fit => namesRepeat_of_factoredBranch (named (sumsFit_quotients fit))

variable (inner : GreedyForm (Rule.wrapped α dim) (quotients var monomials) factored)
  (room : nodes.size + factored.countNodes ≤ nodeLimit)
include inner room

theorem refused_of_rest (divided : lacking var monomials ≠ [])
    (refused : Refused dim (lacking var monomials) (sides none var branch).2
      (nodes ++ (factored.listing nodes.size).toArray) budget) :
    Refused dim monomials branch nodes (budget + factored.countTasks + 1) := by
  intro fuel enough tasks waiting splits
  have parted := size_outside_ne_zero same divided
  obtain ⟨left, rfl⟩ : ∃ left, fuel = left + factored.countTasks + 1 :=
    ⟨fuel - 1 - factored.countTasks, by omega⟩
  rw [work_leading same uniform several leading, divide_parted _ parted,
    work_greedyForm inner (dim_of_mem_quotients uniform) _ (factoredBranch_perm same var) _ _ _ _ _
      room]
  obtain ⟨after, fault, failed, obstacle⟩ := refused left (by omega) _ _ _
  refine ⟨after, fault, failed, ?_⟩
  have lighter := weight_sides_lt ((Rule.wrapped α dim).occurs leading)
  have size := countNodes_le_weight inner
  rw [Nest.size_append_listing] at obstacle
  cases obstacle with
  | crowded more => exact Obstacle.crowded (by omega)
  | alike named => exact Obstacle.alike fun fit => namesRepeat_of_rest (named (sumsFit_lacking fit))

theorem refused_of_join_alone (whole : lacking var monomials = [])
    (full : nodeLimit < nodes.size + factored.countNodes + 1) :
    Refused dim monomials branch nodes (factored.countTasks + 2) := by
  intro fuel enough tasks waiting splits
  have nothing := size_eq_length (rest_perm same var)
  rw [whole] at nothing
  obtain ⟨left, rfl⟩ : ∃ left, fuel = left + 1 + factored.countTasks + 1 :=
    ⟨fuel - 2 - factored.countTasks, by omega⟩
  have last : ¬ (nodes ++ (factored.listing nodes.size).toArray).size < nodeLimit := by
    rw [Nest.size_append_listing]
    omega
  rw [work_leading same uniform several leading, divide_whole _ nothing,
    work_greedyForm inner (dim_of_mem_quotients uniform) _ (factoredBranch_perm same var) _ _ _ _ _
      room]
  have lighter := weight_sides_lt ((Rule.wrapped α dim).occurs leading)
  have size := countNodes_le_weight inner
  exact ⟨_, .treeFull, work_join_fault (Builder.join_alone_of_full last _ _ _ _) _ _ _,
    Obstacle.crowded (by omega)⟩

theorem refused_of_join_rest {rest : Nest α} (divided : lacking var monomials ≠ [])
    (outer : GreedyForm (Rule.wrapped α dim) (lacking var monomials) rest)
    (alsoRoom : nodes.size + factored.countNodes + rest.countNodes ≤ nodeLimit)
    (full : nodeLimit < nodes.size + factored.countNodes + rest.countNodes + 1) :
    Refused dim monomials branch nodes (factored.countTasks + rest.countTasks + 2) := by
  intro fuel enough tasks waiting splits
  have parted := size_outside_ne_zero same divided
  obtain ⟨left, rfl⟩ : ∃ left, fuel = left + 1 + rest.countTasks + factored.countTasks + 1 :=
    ⟨fuel - 2 - factored.countTasks - rest.countTasks, by omega⟩
  have offset := Nest.size_append_listing nodes factored nodes.size
  have last : ¬ (nodes ++ (factored.listing nodes.size).toArray ++ (rest.listing
      (nodes ++ (factored.listing nodes.size).toArray).size).toArray).size < nodeLimit := by
    rw [Nest.size_append_listing, offset]
    omega
  rw [work_leading same uniform several leading, divide_parted _ parted,
    work_greedyForm inner (dim_of_mem_quotients uniform) _ (factoredBranch_perm same var) _ _ _ _ _
      room,
    work_greedyForm outer (dim_of_mem_lacking uniform) _ (rest_perm same var) _ _ _ _ _
      (by rwa [offset])]
  have lighter := weight_sides_lt ((Rule.wrapped α dim).occurs leading)
  have size := countNodes_le_weight inner
  have alsoSize := countNodes_le_weight outer
  exact ⟨_, .treeFull, work_join_fault (Builder.join_rest_of_full last _ _ _ _ _) _ _ _,
    Obstacle.crowded (by omega)⟩

end

theorem refused_of_blocked {nodes : Array (Node α)} (blocked : Blocked dim nodes.size monomials)
    (present : monomials ≠ []) (uniform : ∀ m ∈ monomials, m.dim = dim) (branch : Array (Term α))
    (same : (residuals branch).Perm monomials) :
    Refused dim monomials branch nodes (taskBudget monomials) := by
  induction monomials using greedy.induct (Rule.wrapped α dim) generalizing branch nodes with
  | case1 m =>
      exact refused_mono (refused_of_single same (blocked _ (greedy_singleton _ m)))
        (taskBudget_pos present)
  | case2 monomials several stuck =>
      have heavy := (heaviest_eq_choose same uniform).trans stuck
      exact refused_mono (refused_of_stuck (several_terms same several)
        (two_le_size several present same) heavy
        fun fit => namesRepeat_of_stuck several present stuck uniform same fit)
        (taskBudget_pos present)
  | case3 monomials several var leading innerIh outerIh =>
      have budget := taskBudget_sides ((Rule.wrapped α dim).occurs leading)
      have found := greedy_leading several leading
      -- The factored branch comes first, then the rest, and last the join, which may lack room.
      by_cases innerBlocked : Blocked dim nodes.size (quotients var monomials)
      · have innerPresent : quotients var monomials ≠ [] := by
          rw [quotients, ne_eq, List.map_eq_nil_iff]
          exact having_ne_nil ((Rule.wrapped α dim).occurs leading)
        have refused := innerIh innerBlocked innerPresent (dim_of_mem_quotients uniform) _
          (factoredBranch_perm same var)
        exact refused_mono (refused_of_factoredBranch uniform same several leading refused)
          (by omega)
      · simp only [Blocked, not_forall, Nat.not_lt] at innerBlocked
        obtain ⟨factored, inner, room⟩ := innerBlocked
        have form := greedyForm_of_greedy inner
        have tasks := countTasks_le form
        rw [inner, Option.bind_some] at found
        by_cases whole : lacking var monomials = []
        · have full := blocked _ (found.trans (by rw [whole]; rfl))
          rw [Nest.countNodes] at full
          exact refused_mono (refused_of_join_alone uniform same several leading form room whole
            (by omega)) (by omega)
        · rw [if_neg (by simpa using whole)] at found
          by_cases outerBlocked :
              Blocked dim (nodes ++ (factored.listing nodes.size).toArray).size
                (lacking var monomials)
          · have refused := outerIh outerBlocked whole (dim_of_mem_lacking uniform) _
              (rest_perm same var)
            exact refused_mono (refused_of_rest uniform same several leading form room whole refused)
              (by omega)
          · simp only [Blocked, not_forall, Nat.not_lt, Nest.size_append_listing] at outerBlocked
            obtain ⟨rest, outer, alsoRoom⟩ := outerBlocked
            have alsoForm := greedyForm_of_greedy outer
            have alsoTasks := countTasks_le alsoForm
            have full := blocked _ (found.trans (by rw [outer]; rfl))
            rw [Nest.countNodes] at full
            exact refused_mono (refused_of_join_rest uniform same several leading form room whole
              alsoForm alsoRoom (by omega)) (by omega)

theorem buildNodes_of_blocked {terms : Array (Term α)}
    (blocked : Blocked dim 0 (residuals terms)) (present : residuals terms ≠ [])
    (uniform : ∀ m ∈ residuals terms, m.dim = dim) :
    ∃ after fault, buildNodes none dim terms = (after, some fault) ∧
      Obstacle (residuals terms) terms 0 fault := by
  rw [buildNodes, taskBound_eq]
  have blocked : Blocked dim (#[] : Array (Node α)).size (residuals terms) := blocked
  exact refused_of_blocked blocked present uniform terms (List.Perm.refl _) _ (Nat.le_refl _) [] [] []

end NestedPoly
