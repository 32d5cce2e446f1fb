import LispKernel.Namespace

/-!
# Environments

An environment is a frame of bindings. Frames form chains towards a root and every frame of a chain
has the same registry.
-/
namespace LispKernel

namespace World

/-- Follows at most `n` frames. -/
def lookupFrom (w : World) (symbol : Name) : Nat → FrameRef → Option Value
  | 0, _ => none
  | n + 1, frame =>
    match w.frames.get? frame with
    | none => none
    | some f =>
      match f.bindings.lookup symbol with
      | some value => some value
      | none => f.parent.bind (w.lookupFrom symbol n)

/-- The binding in the nearest frame of the chain. A chain is no longer than there are frames. -/
def lookup (w : World) (frame : FrameRef) (symbol : Name) : Option Value :=
  w.lookupFrom symbol w.frames.size frame

end World

namespace Env

def withRegistry (registry : RegistryRef) : Run FrameRef := fun w =>
  some (.ok w.frames.size, { w with frames := w.frames.push { registry } })

/-- A root with a registry of its own. -/
def new : Run FrameRef := do withRegistry (← Registry.new)

def registry (env : FrameRef) : Run RegistryRef :=
  Run.gets fun w => ((w.frames.get? env).map Frame.registry).getD 0

def child (env : FrameRef) : Run FrameRef := do
  let registry ← registry env
  fun w => some (.ok w.frames.size,
    { w with frames := w.frames.push { parent := some env, registry } })

/-- Binds in this frame alone. -/
def define (env : FrameRef) (symbol : Name) (value : Value) : Run Unit := Run.update fun w =>
  match w.frames.get? env with
  | some f => { w with
      frames := w.frames.set env { f with bindings := (symbol, value) :: f.bindings } }
  | none => w

def lookup (env : FrameRef) (symbol : Name) : Run (Option Value) :=
  Run.gets fun w => w.lookup env symbol

def resolveVar (env : FrameRef) (symbol : Name) : Run (Option Var) := do
  Registry.resolve (← registry env) symbol

def resolveGlobal (env : FrameRef) (symbol : Name) : Run (Option Value) := do
  match ← resolveVar env symbol with
  | some v => v.value?
  | none => return none

/-- Bindings of frames come first, but only for unqualified symbols; then the value of the var. -/
def resolve (env : FrameRef) (symbol : Name) : Run (Option Value) :=
  match symbol.ns with
  | some _ => resolveGlobal env symbol
  | none => do
    match ← lookup env symbol with
    | some value => return some value
    | none => resolveGlobal env symbol

end Env

end LispKernel
