import Mathlib
import NestedPoly.Proofs.Origin

namespace NestedPoly

namespace Load

theorem nat_save {limit n : Nat} (below : n < limit) : nat limit (saveNat n) = .ok n := by
  have range : (0 : Int) ≤ n ∧ (n : Int) < limit := by omega
  rw [saveNat, nat, if_pos range, Int.toNat_natCast]

theorem float_save {x : Float} (finite : x.isFinite) : float (saveFloat x) = .ok x := by
  rw [saveFloat, if_pos finite]
  rfl

theorem powerOf_save {power : Nat × Nat}
    (fits : power.1 < UInt64.size ∧ power.2 < UInt32.size) :
    powerOf (savePower power) = .ok power := by
  rw [savePower, powerOf, word, halfWord, nat_save fits.1, nat_save fits.2]
  rfl

theorem list_save {τ : Type} {item : Document → Except LoadFault τ} {save : τ → Document}
    {entries : List τ} (each : ∀ entry ∈ entries, item (save entry) = .ok entry) :
    list item (.list (entries.map save)) = .ok entries := by
  rw [list]
  induction entries with
  | nil => rfl
  | cons entry entries ih =>
      rcases List.forall_mem_cons.mp each with ⟨first, others⟩
      rw [List.map_cons, List.mapM_cons, first, ih others]
      rfl

theorem list_saveNat {limit : Nat} {numbers : List Nat} (below : ∀ n ∈ numbers, n < limit) :
    list (nat limit) (.list (numbers.map saveNat)) = .ok numbers :=
  list_save fun n member => nat_save (below n member)

theorem mapM_lookup_append {before after : List (String × Document)} {names : List String}
    {values : List Document} (distinct : (before.map Prod.fst ++ names).Nodup)
    (counts : names.length = values.length) :
    names.mapM (List.lookup · (before ++ (names.zip values ++ after))) = some values := by
  induction names generalizing before values with
  | nil =>
      cases values with
      | nil => rfl
      | cons value values => cases counts
  | cons name names ih =>
      cases values with
      | nil => cases counts
      | cons value values =>
          have absent : List.lookup name before = none := by
            rw [List.lookup_eq_none_iff]
            intro entry member
            have disjoint := (List.nodup_append.mp distinct).2.2
            have other := disjoint _ (List.mem_map_of_mem member) _ List.mem_cons_self
            simpa using other.symm
          have later : names.mapM (List.lookup ·
              ((before ++ [(name, value)]) ++ (names.zip values ++ after))) = some values :=
            ih (by simpa using distinct) (Nat.succ.inj counts)
          rw [List.append_assoc, List.singleton_append] at later
          rw [List.zip_cons_cons, List.cons_append, List.mapM_cons, List.lookup_append, absent,
            List.lookup_cons_self, later]
          rfl

/-- A record gives back the values under its first names, whatever entries follow. -/
theorem parts_record (names : List String) (values : List Document)
    (after : List (String × Document)) (distinct : names.Nodup)
    (counts : names.length = values.length) :
    parts names (.record (names.zip values ++ after)) = .ok values := by
  have found : names.mapM (List.lookup · ([] ++ (names.zip values ++ after))) = some values :=
    mapM_lookup_append (by simpa using distinct) counts
  rw [List.nil_append] at found
  rw [parts, found]

end Load

theorem Cost.load_save {cost : Cost} (fits : cost.Fits) : load cost.save = .ok cost := by
  have parts := Load.parts_record ["multiplications", "additions"]
    [saveNat cost.multiplications, saveNat cost.additions] [] (by decide) rfl
  refine bind_eq_ok_iff.mpr ⟨_, parts, ?_⟩
  refine bind_eq_ok_iff.mpr ⟨_, Load.nat_save fits.multiplications, ?_⟩
  refine bind_eq_ok_iff.mpr ⟨_, Load.nat_save fits.additions, ?_⟩
  rfl

theorem TermOrder.load_save (order : TermOrder) : load order.save = .ok order := by
  cases order <;> rfl

theorem Monomial.load_save {m : Monomial Float} (fits : m.Fits) (finite : m.coefficient.isFinite) :
    load m.save = .ok m := by
  have parts := Load.parts_record ["coefficient", "exponents"]
    [saveFloat m.coefficient, .list (m.exponents.map saveNat)] [] (by decide) rfl
  refine bind_eq_ok_iff.mpr ⟨_, parts, ?_⟩
  refine bind_eq_ok_iff.mpr ⟨_, Load.float_save finite, ?_⟩
  refine bind_eq_ok_iff.mpr ⟨_, Load.list_saveNat fits, ?_⟩
  rfl

theorem SparsePoly.load_save {p : SparsePoly Float} (fits : p.Fits)
    (finite : ∀ m ∈ p.monomials, m.coefficient.isFinite) : load p.save = .ok p := by
  have parts := Load.parts_record ["monomials", "dim", "max_exponents", "validate"]
    [.list (p.monomials.map Monomial.save), saveNat p.dim, .list (p.degreeBounds.map saveNat),
      .bool p.checked] [] (by decide) rfl
  have monomials : Load.list Monomial.load (.list (p.monomials.map Monomial.save)) =
      .ok p.monomials :=
    Load.list_save fun m member => Monomial.load_save (fits.monomials m member) (finite m member)
  refine bind_eq_ok_iff.mpr ⟨_, parts, ?_⟩
  refine bind_eq_ok_iff.mpr ⟨_, monomials, ?_⟩
  refine bind_eq_ok_iff.mpr ⟨_, Load.nat_save fits.dim, ?_⟩
  refine bind_eq_ok_iff.mpr ⟨_, Load.list_saveNat fits.degreeBounds, ?_⟩
  rfl

def Node.Finite : Node Float → Prop
  | .leaf coefficient _ => coefficient.isFinite
  | .factor .. => True

instance : (node : Node Float) → Decidable node.Finite
  | .leaf coefficient _ => inferInstanceAs (Decidable (coefficient.isFinite = true))
  | .factor .. => inferInstanceAs (Decidable True)

theorem Node.load_save {node : Node Float} (fits : node.Fits) (finite : node.Finite) :
    load node.save = .ok node := by
  cases node with
  | leaf coefficient powers =>
      have parts := Load.parts_record ["coefficient", "powers"]
        [saveFloat coefficient, .list (powers.map savePower)] [] (by decide) rfl
      have each : Load.list Load.powerOf (.list (powers.map savePower)) = .ok powers :=
        Load.list_save fun power listed => Load.powerOf_save (fits.powers power listed)
      refine bind_eq_ok_iff.mpr ⟨_, parts, ?_⟩
      refine bind_eq_ok_iff.mpr ⟨_, Load.float_save finite, ?_⟩
      refine bind_eq_ok_iff.mpr ⟨_, each, ?_⟩
      rfl
  | factor var power factored rest =>
      have parts := Load.parts_record ["variable", "power", "factored"]
        [saveNat var, saveNat power, saveNat factored]
        [("rest", match rest with | some index => saveNat index | none => .null)] (by decide) rfl
      have named := fits.powers (var, power) List.mem_cons_self
      have first := fits.children factored List.mem_cons_self
      refine bind_eq_ok_iff.mpr ⟨_, parts, ?_⟩
      refine bind_eq_ok_iff.mpr ⟨_, Load.nat_save named.1, ?_⟩
      refine bind_eq_ok_iff.mpr ⟨_, Load.nat_save named.2, ?_⟩
      refine bind_eq_ok_iff.mpr ⟨_, Load.nat_save first, ?_⟩
      refine bind_eq_ok_iff.mpr ⟨rest, ?_, rfl⟩
      cases rest with
      | none => rfl
      | some index =>
          have second := fits.children index (by simp [children])
          exact bind_eq_ok_iff.mpr ⟨_, Load.nat_save second, rfl⟩

theorem Arena.Sound.ofNodes_eq {arena : Arena Float} (sound : arena.Sound) :
    ofNodes arena.nodes = .ok arena :=
  ofNodes_eq_ok_iff.mpr ⟨⟨sound.small, sound.tree⟩, rfl⟩

theorem Arena.load_save {arena : Arena Float} (sound : arena.Sound)
    (finite : ∀ node ∈ arena.nodes, node.Finite) : load arena.save = .ok arena := by
  have nodes : Load.list Node.load arena.save = .ok arena.nodes.toList := by
    apply Load.list_save
    intro node member
    rw [Array.mem_toList_iff] at member
    exact Node.load_save (sound.fits node member) (finite node member)
  exact bind_eq_ok_iff.mpr ⟨_, nodes, mapError_eq_ok_iff.mpr sound.ofNodes_eq⟩

theorem NestedForm.Sound.ofArena?_eq {form : NestedForm Float} (sound : form.Sound) :
    ofArena? form.arena form.dim form.checked = .ok form := by
  rw [ofArena?_eq_ok_iff, Arena.namedVariables_lt_iff, ofArena, ← sound.cost]
  exact ⟨sound.within, rfl⟩

theorem NestedForm.load_save {form : NestedForm Float} (sound : form.Sound)
    (finite : ∀ node ∈ form.arena.nodes, node.Finite) : load form.save = .ok form := by
  have dim : (some (saveNat form.dim)).mapM Load.word = .ok (some form.dim) :=
    mapM_eq_ok_some_iff.mpr ⟨_, rfl, Load.nat_save sound.narrow⟩
  have arena : (some form.arena.save).mapM Arena.load = .ok (some form.arena) :=
    mapM_eq_ok_some_iff.mpr ⟨_, rfl, Arena.load_save sound.arena finite⟩
  refine bind_eq_ok_iff.mpr ⟨_, dim, ?_⟩
  refine bind_eq_ok_iff.mpr ⟨_, arena, ?_⟩
  refine bind_eq_ok_iff.mpr ⟨some form.checked, rfl, ?_⟩
  exact mapError_eq_ok_iff.mpr sound.ofArena?_eq

/-- Values of all kinds are loaded as they were saved. The checks on the way accept every nested form
there can be, and its cost is counted again, for it is not saved. -/
theorem saved_values_load_back :
    (∀ form : NestedForm Float, form.Obtained →
      (Arena.ofNodes form.arena.nodes = .ok form.arena ∧
        NestedForm.ofArena? form.arena form.dim form.checked = .ok form) ∧
      (∀ cost, NestedForm.save { form with cost } = form.save) ∧
      ((∀ node ∈ form.arena.nodes, node.Finite) → NestedForm.load form.save = .ok form)) ∧
    (∀ arena : Arena Float, arena.Obtained → Arena.ofNodes arena.nodes = .ok arena ∧
      ((∀ node ∈ arena.nodes, node.Finite) → Arena.load arena.save = .ok arena)) ∧
    (∀ p : SparsePoly Float, p.Fits → (∀ m ∈ p.monomials, m.coefficient.isFinite) →
      SparsePoly.load p.save = .ok p) ∧
    (∀ m : Monomial Float, m.Fits → m.coefficient.isFinite → Monomial.load m.save = .ok m) ∧
    (∀ node : Node Float, node.Fits → node.Finite → Node.load node.save = .ok node) ∧
    (∀ position < UInt32.size, Load.halfWord (saveNat position) = .ok position) ∧
    (∀ cost : Cost, cost.Fits → Cost.load cost.save = .ok cost) ∧
    ∀ order : TermOrder, TermOrder.load order.save = .ok order := by
  refine ⟨?_, ?_, fun _ => SparsePoly.load_save, fun _ => Monomial.load_save,
    fun _ => Node.load_save, fun _ => Load.nat_save, fun _ => Cost.load_save, TermOrder.load_save⟩
  · intro form obtained
    have sound := NestedForm.sound_of_obtained obtained
    exact ⟨⟨sound.arena.ofNodes_eq, sound.ofArena?_eq⟩, fun _ => rfl, NestedForm.load_save sound⟩
  · intro arena obtained
    have sound := Arena.sound_of_obtained obtained
    exact ⟨sound.ofNodes_eq, Arena.load_save sound⟩

theorem saved_values_load_back_three : ∃ nodes : Array (Node Float),
    nodes = #[.leaf 3 [(1, 1)], .leaf 1 [], .factor 0 2 0 (some 1)] ∧
      NestedForm.Obtained ⟨⟨nodes⟩, 3, ⟨3, 1⟩, true⟩ ∧ (∀ node ∈ nodes, node.Finite) ∧
      NestedForm.load (NestedForm.save ⟨⟨nodes⟩, 3, ⟨3, 1⟩, true⟩) =
        .ok ⟨⟨nodes⟩, 3, ⟨3, 1⟩, true⟩ ∧
      Monomial.load (Monomial.save ⟨5, [2, 1]⟩) = .ok ⟨5, [2, 1]⟩ := by
  obtain ⟨nodes, spelled⟩ : ∃ nodes : Array (Node Float),
    nodes = #[.leaf 3 [(1, 1)], .leaf 1 [], .factor 0 2 0 (some 1)] := ⟨_, rfl⟩
  have accepted : Arena.ofNodes nodes = .ok ⟨nodes⟩ := by
    rw [spelled]
    cbv
  have wrapped : NestedForm.ofArena? ⟨nodes⟩ 3 true = .ok ⟨⟨nodes⟩, 3, ⟨3, 1⟩, true⟩ := by
    rw [spelled]
    cbv
  have fits : ∀ node ∈ nodes, node.Fits := by
    rw [spelled]
    decide
  have finite : ∀ node ∈ nodes, node.Finite := by
    rw [spelled]
    decide
  have obtained := NestedForm.Obtained.wrapped (.accepted fits accepted) (by decide) wrapped
  refine ⟨nodes, spelled, obtained, finite, (saved_values_load_back.1 _ obtained).2.2 finite, ?_⟩
  exact saved_values_load_back.2.2.2.1 ⟨5, [2, 1]⟩ (by decide) (by decide)

end NestedPoly
