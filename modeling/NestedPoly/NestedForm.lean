import NestedPoly.Arena.Shape
import NestedPoly.Arena.Text

namespace NestedPoly

structure NestedForm (α : Type) where
  arena : Arena α
  dim : Nat
  cost : Cost
  checked : Bool
  deriving BEq, DecidableEq, Repr

namespace NestedForm

variable {α : Type}

def ofArena (arena : Arena α) (dim : Nat) (checked : Bool) : NestedForm α :=
  ⟨arena, dim, arena.cost, checked⟩

/-- Refuses an arena that names a variable outside the dimension. The largest one is reported. -/
def ofArena? (arena : Arena α) (dim : Nat) (checked : Bool) : Except Fault (NestedForm α) :=
  match arena.largestVariable with
  | some var =>
    if dim ≤ var then .error (.variableBeyond var dim) else .ok (ofArena arena dim checked)
  | none => .ok (ofArena arena dim checked)

def length (form : NestedForm α) : Nat := form.arena.countLeaves

def isEmpty (_ : NestedForm α) : Bool := false

def evalRaw [Scalar α] (form : NestedForm α) (point : Array α) : Except Fault α :=
  form.arena.eval point

instance [Scalar α] : Evaluable (NestedForm α) α := ⟨dim, evalRaw, cost⟩

def eval [Scalar α] (form : NestedForm α) (point : Array α) : Except Fault α := do
  if form.checked then checkLength form.dim point
  form.evalRaw point

def text (scalarText : α → String) (form : NestedForm α) : String :=
  s!"[{form.cost.total}] p(x) = " ++ form.arena.text scalarText

end NestedForm

end NestedPoly
