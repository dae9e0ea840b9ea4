import NestedPoly.Document
import NestedPoly.NestedForm
import NestedPoly.Sparse

namespace NestedPoly

def saveFloat (x : Float) : Document := if x.isFinite then .real x else .null

def saveNat (n : Nat) : Document := .int n

def savePower (power : Nat × Nat) : Document := .list [saveNat power.1, saveNat power.2]

def Cost.save (cost : Cost) : Document :=
  .record [("multiplications", saveNat cost.multiplications), ("additions", saveNat cost.additions)]

def TermOrder.storedName : TermOrder → String
  | lex => "Lex"
  | grlex => "Grlex"
  | grevlex => "Grevlex"

def TermOrder.save (order : TermOrder) : Document := .text order.storedName

def Monomial.save (m : Monomial Float) : Document :=
  .record [("coefficient", saveFloat m.coefficient), ("exponents", .list (m.exponents.map saveNat))]

def SparsePoly.save (p : SparsePoly Float) : Document :=
  .record [
    ("monomials", .list (p.monomials.map Monomial.save)),
    ("dim", saveNat p.dim),
    ("max_exponents", .list (p.degreeBounds.map saveNat)),
    ("validate", .bool p.checked)]

def Node.save : Node Float → Document
  | leaf coefficient powers =>
    .record [("Leaf", .record [
      ("coefficient", saveFloat coefficient),
      ("powers", .list (powers.map savePower))])]
  | factor var power factored rest =>
    .record [("Factor", .record [
      ("variable", saveNat var),
      ("power", saveNat power),
      ("factored", saveNat factored),
      ("rest", match rest with | some index => saveNat index | none => .null)])]

def Arena.save (arena : Arena Float) : Document := .list (arena.nodes.toList.map Node.save)

def NestedForm.save (form : NestedForm Float) : Document :=
  .record [
    ("tree", form.arena.save),
    ("dim", saveNat form.dim),
    ("validate", .bool form.checked)]

end NestedPoly
