import LispKernel.Var

/-!
# Namespaces and registries

A namespace has vars of its own and refers to vars of others. A registry knows namespaces by name
and which of them is current.
-/
namespace LispKernel

namespace World

def namespace? (w : World) (ns : NamespaceRef) : Option Namespace := w.namespaces.get? ns

def registry? (w : World) (r : RegistryRef) : Option Registry := w.registries.get? r

def updateNamespace (w : World) (ns : NamespaceRef) (f : Namespace → Namespace) : World :=
  match w.namespace? ns with
  | some space => { w with namespaces := w.namespaces.set ns (f space) }
  | none => w

def updateRegistry (w : World) (r : RegistryRef) (f : Registry → Registry) : World :=
  match w.registry? r with
  | some registry => { w with registries := w.registries.set r (f registry) }
  | none => w

/-- A new native procedure. -/
def addNative (w : World) (name : String) (code : Native) : Proc × World :=
  (⟨name, w.natives.size⟩, { w with natives := w.natives.push code })

end World

def Proc.new (name : String) (code : Native) : Run Proc := fun w =>
  let (p, w) := w.addNative name code
  some (.ok p, w)

namespace Namespace

def new (name : String) : Run NamespaceRef := fun w =>
  some (.ok w.namespaces.size, { w with namespaces := w.namespaces.push { name } })

def nameOf (ns : NamespaceRef) : Run String :=
  Run.gets fun w => ((w.namespace? ns).map Namespace.name).getD ""

/-- A var of the namespace itself. -/
def findVar (ns : NamespaceRef) (name : String) : Run (Option Var) :=
  Run.gets fun w => (w.namespace? ns).bind fun space => space.vars.lookup name

/-- The var of that name, made without a value if there is none. -/
def intern (ns : NamespaceRef) (name : String) : Run Var := do
  match ← findVar ns name with
  | some v => return v
  | none =>
    let v ← Var.new (some (← nameOf ns)) ⟨none, name⟩
    Run.update fun w => w.updateNamespace ns fun space =>
      { space with vars := (name, v) :: space.vars }
    return v

def internValue (ns : NamespaceRef) (name : String) (value : Value) : Run Var := do
  let v ← intern ns name
  v.bind value
  return v

def defineNative (ns : NamespaceRef) (name : String) (code : Native) : Run Var := do
  internValue ns name (.proc (← Proc.new name code))

/-- By the name alone: the vars of the namespace come before those it refers to. -/
def resolve (ns : NamespaceRef) (symbol : Name) : Run (Option Var) :=
  Run.gets fun w => (w.namespace? ns).bind fun space =>
    (space.vars.lookup symbol.name).or (space.refers.lookup symbol.name)

def refer (ns : NamespaceRef) (name : String) (v : Var) : Run Unit :=
  Run.update fun w => w.updateNamespace ns fun space =>
    { space with refers := (name, v) :: space.refers }

def ownVars (ns : NamespaceRef) : Run (List (String × Var)) :=
  Run.gets fun w => ((w.namespace? ns).map Namespace.vars).getD []

/-- The vars in the order of their names. -/
def sortedVars (ns : NamespaceRef) : Run (List (String × Var)) := do
  return (← ownVars ns).mergeSort fun a b => (compare a.1 b.1).isLE

/-- Refers to every var that the other namespace has of its own. -/
def referAll (ns other : NamespaceRef) : Run Unit := do
  let own ← ownVars other
  Run.update fun w => w.updateNamespace ns fun space =>
    { space with refers := own ++ space.refers }

end Namespace

namespace Registry

def coreName : String := "lumen.core"

def userName : String := "user"

/-- Two namespaces, the user's one current. -/
def new : Run RegistryRef := do
  let core ← Namespace.new coreName
  let user ← Namespace.new userName
  fun w => some (.ok w.registries.size, { w with
    registries := w.registries.push ⟨[(coreName, core), (userName, user)], userName⟩ })

def find (r : RegistryRef) (name : String) : Run (Option NamespaceRef) :=
  Run.gets fun w => (w.registry? r).bind fun registry => registry.namespaces.lookup name

/-- The namespace of that name, made empty if there is none. -/
def ensure (r : RegistryRef) (name : String) : Run NamespaceRef := do
  match ← find r name with
  | some ns => return ns
  | none =>
    let ns ← Namespace.new name
    Run.update fun w => w.updateRegistry r fun registry =>
      { registry with namespaces := (name, ns) :: registry.namespaces }
    return ns

def currentName (r : RegistryRef) : Run String :=
  Run.gets fun w => ((w.registry? r).map Registry.selected).getD userName

def current (r : RegistryRef) : Run NamespaceRef := do ensure r (← currentName r)

def setCurrent (r : RegistryRef) (name : String) : Run NamespaceRef := do
  let ns ← ensure r name
  Run.update fun w => w.updateRegistry r fun registry => { registry with selected := name }
  return ns

/-- A qualified symbol names a var of its namespace's own, any other one goes through the current
namespace. -/
def resolve (r : RegistryRef) (symbol : Name) : Run (Option Var) :=
  match symbol.ns with
  | some ns => do
    match ← find r ns with
    | some ns => Namespace.findVar ns symbol.name
    | none => return none
  | none => do Namespace.resolve (← current r) symbol

end Registry

end LispKernel
