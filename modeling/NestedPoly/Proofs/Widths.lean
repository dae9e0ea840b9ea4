import Mathlib
import NestedPoly.Storage.Load
import NestedPoly.Proofs.ArenaPass
import NestedPoly.Proofs.CodeAgreement
import NestedPoly.Proofs.Expansion

namespace NestedPoly

variable {α : Type}

def Node.namedPowers : Node α → List (Nat × Nat)
  | .leaf _ powers => powers
  | .factor var power _ _ => [(var, power)]

theorem Node.within_iff {dim : Nat} {node : Node α} :
    node.Within dim ↔ ∀ power ∈ node.namedPowers, power.1 < dim := by
  cases node with
  | leaf coefficient powers => rfl
  | factor var power factored rest =>
      rw [namedPowers, List.forall_mem_singleton]
      rfl

structure Node.Fits (node : Node α) : Prop where
  powers : ∀ power ∈ node.namedPowers, power.1 < UInt64.size ∧ power.2 < UInt32.size
  children : ∀ child ∈ node.children, child < UInt32.size

instance (node : Node α) : Decidable node.Fits :=
  decidable_of_iff
    ((∀ power ∈ node.namedPowers, power.1 < UInt64.size ∧ power.2 < UInt32.size) ∧
      ∀ child ∈ node.children, child < UInt32.size)
    ⟨fun both => ⟨both.1, both.2⟩, fun fits => ⟨fits.powers, fits.children⟩⟩

structure SparsePoly.Fits (p : SparsePoly α) : Prop where
  monomials : ∀ m ∈ p.monomials, m.Fits
  dim : p.dim < UInt64.size
  degreeBounds : ∀ exponent ∈ p.degreeBounds, exponent < UInt32.size

structure Cost.Fits (cost : Cost) : Prop where
  multiplications : cost.multiplications < UInt64.size
  additions : cost.additions < UInt64.size

section
variable {dim var : Nat} {rule : Rule α dim} {monomials : List (Monomial α)}

theorem Monomial.fits_quotient {m : Monomial α} (fits : m.Fits) (var power : Nat) :
    (m.quotient var power).Fits := by
  intro exponent member
  rcases List.mem_iff_getElem?.mp member with ⟨i, entry⟩
  rw [Monomial.quotient, List.getElem?_modify, Option.map_eq_map, Option.map_eq_some_iff] at entry
  rcases entry with ⟨before, entry, rfl⟩
  have small := fits before (List.mem_of_getElem? entry)
  split
  · exact Nat.lt_of_le_of_lt (Nat.sub_le before power) small
  · exact small

theorem fits_of_mem_quotients (fits : ∀ m ∈ monomials, m.Fits) :
    ∀ m ∈ quotients var monomials, m.Fits := by
  intro m member
  rcases List.mem_map.mp member with ⟨whole, inside, rfl⟩
  exact Monomial.fits_quotient (fits whole (List.mem_of_mem_filter inside)) var _

theorem fits_of_mem_lacking (fits : ∀ m ∈ monomials, m.Fits) :
    ∀ m ∈ lacking var monomials, m.Fits :=
  fun m member => fits m (List.mem_of_mem_filter member)

theorem commonPower_lt (fits : ∀ m ∈ monomials, m.Fits)
    (occurs : 0 < degreeIn monomials var) : commonPower var monomials < UInt32.size := by
  rcases exists_exponent_eq_commonPower occurs with ⟨m, inside, least⟩
  rw [← least]
  exact Monomial.exponent_lt_of_fits (fits m (List.mem_of_mem_filter inside)) var

theorem power_lt_of_mem_listing {nest : Nest α} (form : GreedyForm rule monomials nest)
    (fits : ∀ m ∈ monomials, m.Fits) (offset : Nat) :
    ∀ node ∈ nest.listing offset, ∀ power ∈ node.namedPowers, power.2 < UInt32.size := by
  induction form generalizing offset with
  | leaf m =>
      rw [Nest.listing, List.forall_mem_singleton]
      intro power listed
      have entry := (mem_nonzeroPowers.mp listed).1
      exact fits m List.mem_cons_self power.2 (List.mem_of_getElem? entry)
  | @scaled monomials var factored several leading whole inner ih =>
      rw [Nest.listing, List.forall_mem_append, List.forall_mem_singleton]
      refine ⟨ih (fits_of_mem_quotients fits) offset, ?_⟩
      rw [Node.namedPowers, List.forall_mem_singleton]
      exact commonPower_lt fits (rule.occurs leading)
  | @joined monomials var factored rest several leading divided inner outer innerIh outerIh =>
      rw [Nest.listing, List.forall_mem_append, List.forall_mem_append, List.forall_mem_singleton]
      refine ⟨⟨innerIh (fits_of_mem_quotients fits) offset,
        outerIh (fits_of_mem_lacking fits) _⟩, ?_⟩
      rw [Node.namedPowers, List.forall_mem_singleton]
      exact commonPower_lt fits (rule.occurs leading)

theorem fits_of_mem_rowMonomials {coefficients : List α} {rows : List (List Int)}
    (readable : Readable coefficients rows) : ∀ m ∈ rowMonomials coefficients rows, m.Fits := by
  intro m member exponent listed
  rcases List.mem_map.mp member with ⟨⟨coefficient, row⟩, inside, rfl⟩
  rcases List.mem_map.mp listed with ⟨value, entry, rfl⟩
  have range := (readable.fits row (List.of_mem_zip inside).2).2 value entry
  omega

end

namespace Load

theorem nat_lt {limit n : Nat} {document : Document} (read : nat limit document = .ok n) :
    n < limit := by
  unfold nat at read
  split at read
  · split at read
    · rename_i range
      cases read
      omega
    · cases read
  · cases read

theorem powerOf_lt {document : Document} {power : Nat × Nat} (read : powerOf document = .ok power) :
    power.1 < UInt64.size ∧ power.2 < UInt32.size := by
  unfold powerOf at read
  split at read
  · rcases bind_eq_ok_iff.mp read with ⟨var, first, read⟩
    rcases bind_eq_ok_iff.mp read with ⟨exponent, second, read⟩
    cases read
    exact ⟨nat_lt first, nat_lt second⟩
  · cases read

theorem exists_of_mem_list {τ : Type} {item : Document → Except LoadFault τ} {document : Document}
    {results : List τ} (read : list item document = .ok results) {result : τ}
    (member : result ∈ results) : ∃ part, item part = .ok result := by
  unfold list at read
  split at read
  · rename_i items
    rcases List.mem_iff_getElem.mp member with ⟨i, inside, rfl⟩
    have each := forall₂_of_mapM_eq_ok read
    exact ⟨_, each.get (each.length_eq ▸ inside) inside⟩
  · cases read

theorem lt_of_mem_list {limit : Nat} {document : Document} {numbers : List Nat}
    (read : list (nat limit) document = .ok numbers) : ∀ n ∈ numbers, n < limit := by
  intro n member
  rcases exists_of_mem_list read member with ⟨part, read⟩
  exact nat_lt read

end Load

theorem Monomial.fits_of_load {document : Document} {m : Monomial Float}
    (read : load document = .ok m) : m.Fits := by
  unfold load at read
  rcases bind_eq_ok_iff.mp read with ⟨parts, _, read⟩
  split at read
  · rcases bind_eq_ok_iff.mp read with ⟨coefficient, _, read⟩
    rcases bind_eq_ok_iff.mp read with ⟨exponents, listed, read⟩
    cases read
    exact Load.lt_of_mem_list listed
  · cases read

theorem SparsePoly.fits_of_load {document : Document} {poly : SparsePoly Float}
    (read : load document = .ok poly) : poly.Fits := by
  unfold load at read
  rcases bind_eq_ok_iff.mp read with ⟨parts, _, read⟩
  split at read
  · rcases bind_eq_ok_iff.mp read with ⟨monomials, listed, read⟩
    rcases bind_eq_ok_iff.mp read with ⟨dim, narrow, read⟩
    rcases bind_eq_ok_iff.mp read with ⟨degreeBounds, bounds, read⟩
    rcases bind_eq_ok_iff.mp read with ⟨checked, _, read⟩
    cases read
    constructor
    · intro m member
      rcases Load.exists_of_mem_list listed member with ⟨part, read⟩
      exact Monomial.fits_of_load read
    · exact Load.nat_lt narrow
    · exact Load.lt_of_mem_list bounds
  · cases read

theorem Node.loadRest_lt {document : Option Document} {rest : Option Nat}
    (read : loadRest document = .ok rest) : ∀ child ∈ rest, child < UInt32.size := by
  unfold loadRest at read
  split at read
  · cases read
    simp
  · cases read
    simp
  · rcases bind_eq_ok_iff.mp read with ⟨child, first, read⟩
    cases read
    intro other named
    cases named
    exact Load.nat_lt first

theorem Node.fits_of_load {document : Document} {node : Node Float}
    (read : load document = .ok node) : node.Fits := by
  unfold load at read
  split at read
  · rcases bind_eq_ok_iff.mp read with ⟨parts, _, read⟩
    split at read
    · rcases bind_eq_ok_iff.mp read with ⟨coefficient, _, read⟩
      rcases bind_eq_ok_iff.mp read with ⟨powers, listed, read⟩
      cases read
      constructor
      · intro power member
        rcases Load.exists_of_mem_list listed member with ⟨part, read⟩
        exact Load.powerOf_lt read
      · intro child named
        cases named
    · cases read
  · rcases bind_eq_ok_iff.mp read with ⟨parts, _, read⟩
    split at read
    · rcases bind_eq_ok_iff.mp read with ⟨var, first, read⟩
      rcases bind_eq_ok_iff.mp read with ⟨power, second, read⟩
      rcases bind_eq_ok_iff.mp read with ⟨factored, third, read⟩
      rcases bind_eq_ok_iff.mp read with ⟨rest, last, read⟩
      cases read
      constructor
      · rw [Node.namedPowers, List.forall_mem_singleton]
        exact ⟨Load.nat_lt first, Load.nat_lt second⟩
      · intro child named
        rcases List.mem_cons.mp named with rfl | other
        · exact Load.nat_lt third
        · exact loadRest_lt last child (Option.mem_toList.mp other)
    · cases read
  · cases read

end NestedPoly
