import LispKernel.Heap
import LispKernel.Native

/-!
# The world

Everything that computation can change, as one value: lazy cells, var cells, native code, frames,
namespaces, registries, counters, the log, which lazy cells have made their calls, the number of the
next storage, and the settings.
-/
namespace LispKernel

abbrev NamespaceRef := Nat
abbrev RegistryRef := Nat

/-- A lazy cell waits for a call to be made or holds the sequence it gave. -/
inductive LazyCell where
  | pending (callee : Value) (args : List Value)
  | realized (s : Seq)

structure VarCell where
  value : Option Value := none
  metadata : Option Dict := none

/-- Bindings, the latest first, in front of those of the parent. -/
structure Frame where
  bindings : List (Name × Value) := []
  parent : Option FrameRef := none
  registry : RegistryRef

/-- Own vars, and vars of other namespaces that are visible here; the latest first. -/
structure Namespace where
  name : String
  vars : List (String × Var) := []
  refers : List (String × Var) := []

structure Registry where
  namespaces : List (String × NamespaceRef) := []
  selected : String

structure World where
  lazies : Heap LazyCell := {}
  vars : Heap VarCell := {}
  natives : Heap Native := {}
  frames : Heap Frame := {}
  namespaces : Heap Namespace := {}
  registries : Heap Registry := {}
  counters : Heap Nat := {}
  /-- The latest line first. -/
  log : List String := []
  /-- A cell for each call that a lazy cell has made, the latest first. -/
  productions : List LazyRef := []
  /-- The number that the next storage gets. -/
  storages : Nat := 0
  /-- How many evaluations are under way. -/
  depth : Nat := 0
  maxDepth : Nat := 10000
  printLength : Option Nat := none

instance : Inhabited World := ⟨{}⟩

end LispKernel
