import LispKernel.Run

/-!
# Vars

A var names a cell that holds a value, once it is bound, and metadata.
-/
namespace LispKernel

namespace World

def varCell (w : World) (cell : VarRef) : VarCell := (w.vars.get? cell).getD {}

end World

namespace Var

/-- A new cell without a value. -/
def new (ns : Option String) (name : Name) : Run Var := fun w =>
  some (.ok ⟨ns, name, w.vars.size⟩, { w with vars := w.vars.push {} })

def value? (v : Var) : Run (Option Value) := Run.gets fun w => (w.varCell v.cell).value

def metadata? (v : Var) : Run (Option Dict) := Run.gets fun w => (w.varCell v.cell).metadata

def bind (v : Var) (value : Value) : Run Unit := Run.update fun w =>
  { w with vars := w.vars.set v.cell { w.varCell v.cell with value := some value } }

def setMetadata (v : Var) (metadata : Option Dict) : Run Unit := Run.update fun w =>
  { w with vars := w.vars.set v.cell { w.varCell v.cell with metadata } }

def withValue (ns : Option String) (name : Name) (value : Value) : Run Var := do
  let v ← new ns name
  v.bind value
  return v

def deref (v : Var) : Run Value := do
  match ← v.value? with
  | some value => return value
  | none => .fail (.unboundVar (toString v))

end Var

end LispKernel
