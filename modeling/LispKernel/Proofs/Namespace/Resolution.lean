import LispKernel.Proofs.Namespace.Registry
import LispKernel.Proofs.Refinement.Run

/-!
# What a symbol resolves to

Resolution as a function of the world. The only thing that resolving a symbol can change is that the
current namespace of the registry is made, if the registry does not have it yet.
-/
namespace LispKernel

namespace World

def currentName (w : World) (r : RegistryRef) : String := (w.selected r).getD Registry.userName

/-- The var that a namespace has of its own or refers to. -/
def visible (w : World) (ns : NamespaceRef) (name : String) : Option Var :=
  (w.namespace? ns).bind fun space => (space.vars.lookup name).or (space.refers.lookup name)

def varOf (w : World) (r : RegistryRef) (symbol : Name) : Option Var :=
  match symbol.ns with
  | some n => (w.registered r n).bind (w.own · symbol.name)
  | none => (w.registered r (w.currentName r)).bind (w.visible · symbol.name)

def registryOf (w : World) (env : FrameRef) : RegistryRef :=
  ((w.frames.get? env).map Frame.registry).getD 0

/-- The registry has its current namespace. -/
def HasCurrent (w : World) (r : RegistryRef) : Prop := (w.registered r (w.currentName r)).isSome

def resolveGlobal (w : World) (env : FrameRef) (symbol : Name) : Option Value :=
  (w.varOf (w.registryOf env) symbol).bind fun v => (w.varCell v.cell).value

def resolve (w : World) (env : FrameRef) (symbol : Name) : Option Value :=
  match symbol.ns with
  | some _ => w.resolveGlobal env symbol
  | none => (w.lookup env symbol).or (w.resolveGlobal env symbol)

/-- The world with the current namespace of a registry. -/
def withCurrent (w : World) (r : RegistryRef) : World :=
  if (w.registered r (w.currentName r)).isSome then w else w.enter r (w.currentName r)

/-- The world after a symbol has been resolved: an unqualified one that no frame binds goes through
the current namespace. -/
def consulted (w : World) (env : FrameRef) (symbol : Name) : World :=
  match symbol.ns, w.lookup env symbol with
  | none, none => w.withCurrent (w.registryOf env)
  | _, _ => w

variable {w w' : World}

theorem lookup_eq_of_frames (h : w'.frames = w.frames) (env : FrameRef) (symbol : Name) :
    w'.lookup env symbol = w.lookup env symbol := by
  have hfrom (n : Nat) (env : FrameRef) :
      w'.lookupFrom symbol n env = w.lookupFrom symbol n env := by
    induction n generalizing env with
    | zero => rfl
    | succ n ih => rw [lookupFrom, lookupFrom, h, funext ih]
  unfold lookup
  rw [h, hfrom]

/-- The worlds have the same frames, vars, namespaces and registries. -/
structure SameBindings (w w' : World) : Prop where
  frames : w'.frames = w.frames
  vars : w'.vars = w.vars
  namespaces : w'.namespaces = w.namespaces
  registries : w'.registries = w.registries

theorem SameBindings.varCell (h : w.SameBindings w') (i : VarRef) : w'.varCell i = w.varCell i := by
  rw [World.varCell, World.varCell, h.vars]

/-- Resolution looks at nothing else. -/
theorem SameBindings.resolve (h : w.SameBindings w') (env : FrameRef) (symbol : Name) :
    w'.resolve env symbol = w.resolve env symbol := by
  have hglobal : w'.resolveGlobal env symbol = w.resolveGlobal env symbol := by
    simp only [resolveGlobal, registryOf, varOf, registered, own, visible, currentName, selected,
      registry?, namespace?, World.varCell, h.frames, h.vars, h.namespaces, h.registries]
  unfold World.resolve
  rw [hglobal, lookup_eq_of_frames h.frames]

/-- A frame binds a name to the value, or the value is that of a var. -/
inductive Stores (w : World) : Value → Prop where
  | binding {i : FrameRef} {f : Frame} {b : Name × Value} :
      w.frames.get? i = some f → b ∈ f.bindings → Stores w b.2
  | var {i : VarRef} {cell : VarCell} {v : Value} :
      w.vars.get? i = some cell → cell.value = some v → Stores w v

theorem stores_of_varCell {i : VarRef} {v : Value} (h : (w.varCell i).value = some v) :
    w.Stores v := by
  unfold varCell at h
  cases hcell : w.vars.get? i with
  | none =>
    rw [hcell] at h
    cases h
  | some cell =>
    rw [hcell] at h
    exact .var hcell h

theorem stores_of_lookup {env : FrameRef} {symbol : Name} {v : Value}
    (h : w.lookup env symbol = some v) : w.Stores v := by
  unfold lookup at h
  generalize w.frames.size = n at h
  induction n generalizing env with
  | zero => cases h
  | succ n ih =>
    rw [lookupFrom] at h
    cases hframe : w.frames.get? env with
    | none =>
      rw [hframe] at h
      cases h
    | some f =>
      simp only [hframe] at h
      cases hvalue : f.bindings.lookup symbol with
      | some value =>
        obtain ⟨before, behind, hbindings, -⟩ := List.lookup_eq_some_iff.1 hvalue
        simp only [hvalue] at h
        cases h
        exact .binding (b := (symbol, v)) hframe (by simp [hbindings])
      | none =>
        simp only [hvalue] at h
        obtain ⟨parent, -, h⟩ := Option.bind_eq_some_iff.1 h
        exact ih h

theorem stores_of_resolve {env : FrameRef} {symbol : Name} {v : Value}
    (h : w.resolve env symbol = some v) : w.Stores v := by
  have hglobal (h : w.resolveGlobal env symbol = some v) : w.Stores v := by
    obtain ⟨a, -, h⟩ := Option.bind_eq_some_iff.1 h
    exact stores_of_varCell h
  unfold resolve at h
  cases hns : symbol.ns with
  | some n =>
    rw [hns] at h
    exact hglobal h
  | none =>
    rw [hns] at h
    rcases Option.or_eq_some_iff.1 h with h | ⟨-, h⟩
    · exact stores_of_lookup h
    · exact hglobal h

/-- Nothing but registries and namespaces is changed where the current namespace is made. -/
theorem withCurrent_eq (w : World) (r : RegistryRef) :
    ∃ namespaces registries, w.withCurrent r = { w with namespaces, registries } := by
  unfold withCurrent
  split
  · exact ⟨_, _, rfl⟩
  · unfold enter updateRegistry
    split
    · exact ⟨_, _, rfl⟩
    · exact ⟨_, _, rfl⟩

theorem consulted_eq (w : World) (env : FrameRef) (symbol : Name) :
    ∃ namespaces registries, w.consulted env symbol = { w with namespaces, registries } := by
  unfold consulted
  split
  · exact w.withCurrent_eq _
  · exact ⟨_, _, rfl⟩

/-- If the current namespace is there, resolving changes nothing. -/
theorem HasCurrent.consulted_eq {env : FrameRef} (h : w.HasCurrent (w.registryOf env))
    (symbol : Name) : w.consulted env symbol = w := by
  unfold consulted
  split
  · exact if_pos h
  · rfl

end World

theorem Registry.resolve_eq (r : RegistryRef) (symbol : Name) (w : World) :
    resolve r symbol w = some (.ok (w.varOf r symbol),
      if symbol.ns.isSome then w else w.withCurrent r) := by
  cases hns : symbol.ns with
  | some n => simp [resolve_qualified hns, World.varOf, hns]
  | none =>
    simp only [resolve, World.varOf, hns]
    have hname : currentName r w = some (.ok (w.currentName r), w) := rfl
    have hcurrent : current r w = ensure r (w.currentName r) w := by
      rw [current, Run.bind_of_ok hname]
    simp only [Option.isSome_none, World.withCurrent]
    cases h : w.registered r (w.currentName r) with
    | some ns =>
      rw [ensure_of_registered h] at hcurrent
      rw [Run.bind_of_ok hcurrent]
      rfl
    | none =>
      rw [ensure_of_none h] at hcurrent
      rw [Run.bind_of_ok hcurrent]
      have hnew : (w.enter r (w.currentName r)).namespace? w.namespaces.size =
          some { name := w.currentName r } := by
        rw [World.namespace?_enter, if_pos rfl]
      have hnone : (w.enter r (w.currentName r)).visible w.namespaces.size symbol.name = none := by
        rw [World.visible, hnew]
        rfl
      simp only [Option.isSome_none, Bool.false_eq_true, if_false, Option.bind_none]
      rw [← hnone]
      rfl

theorem Env.resolve_eq (env : FrameRef) (symbol : Name) (w : World) :
    resolve env symbol w = some (.ok (w.resolve env symbol), w.consulted env symbol) := by
  have hglobal : resolveGlobal env symbol w = some (.ok (w.resolveGlobal env symbol),
      if symbol.ns.isSome then w else w.withCurrent (w.registryOf env)) := by
    have hvar : resolveVar env symbol w = _ := Registry.resolve_eq (w.registryOf env) symbol w
    rw [resolveGlobal, Run.bind_of_ok hvar, World.resolveGlobal]
    cases w.varOf (w.registryOf env) symbol with
    | none => rfl
    | some v =>
      have hvars : (if symbol.ns.isSome then w else w.withCurrent (w.registryOf env)).vars =
          w.vars := by
        split
        · rfl
        · obtain ⟨_, _, hcurrent⟩ := w.withCurrent_eq (w.registryOf env)
          rw [hcurrent]
      simp only [Var.value?, Run.gets, World.varCell, hvars, Option.bind_some]
  unfold resolve World.resolve World.consulted
  cases hns : symbol.ns with
  | some n =>
    rw [hns] at hglobal
    exact hglobal
  | none =>
    rw [hns] at hglobal
    have hlookup : lookup env symbol w = some (.ok (w.lookup env symbol), w) := rfl
    simp only [Run.bind_of_ok hlookup]
    cases w.lookup env symbol with
    | some value => rfl
    | none => exact hglobal

end LispKernel
