import LispKernel.Native.Encoding
import LispKernel.Proofs.Outcome

/-!
# Registries over whole runs

Whatever is done to a registry, its namespaces and their vars is a chain of a few kinds of steps,
each with the guard under which it is taken. No step forgets a namespace, a var or that a var is
bound, and the steps keep a registry sound: its namespaces go by their names, its vars belong to
them, and no two of its vars have the same cell.
-/
namespace LispKernel

open Run (ReturnsIn)

namespace World

/-! ## What can be seen of a registry -/

/-- The namespace that a registry has under a name. -/
def registered (w : World) (r : RegistryRef) (name : String) : Option NamespaceRef :=
  (w.registry? r).bind fun registry => registry.namespaces.lookup name

def selected (w : World) (r : RegistryRef) : Option String := (w.registry? r).map Registry.selected

def title (w : World) (ns : NamespaceRef) : Option String := (w.namespace? ns).map Namespace.name

/-- The var that a namespace has of its own under a name. -/
def own (w : World) (ns : NamespaceRef) (name : String) : Option Var :=
  (w.namespace? ns).bind fun space => space.vars.lookup name

/-- A namespace of the registry has the var of its own. -/
def Has (w : World) (r : RegistryRef) (n x : String) (v : Var) : Prop :=
  ∃ ns, w.registered r n = some ns ∧ w.own ns x = some v

def Bound (w : World) (cell : VarRef) : Prop := (w.varCell cell).value.isSome

/-! ## Changes -/

/-- A new namespace, which the registry has under its name from now on. -/
def enter (w : World) (r : RegistryRef) (name : String) : World :=
  { w.updateRegistry r fun registry =>
      { registry with namespaces := (name, w.namespaces.size) :: registry.namespaces } with
    namespaces := w.namespaces.push { name } }

def select (w : World) (r : RegistryRef) (name : String) : World :=
  w.updateRegistry r fun registry => { registry with selected := name }

/-- A new var without a value, which the namespace has of its own from now on. -/
def adopt (w : World) (ns : NamespaceRef) (name : String) : World :=
  { w.updateNamespace ns fun space => { space with
      vars := (name, ⟨some ((w.title ns).getD ""), ⟨none, name⟩, w.vars.size⟩) :: space.vars } with
    vars := w.vars.push {} }

def refer (w : World) (ns : NamespaceRef) (entries : List (String × Var)) : World :=
  w.updateNamespace ns fun space => { space with refers := entries ++ space.refers }

variable {w : World} {r r' : RegistryRef} {ns ns' : NamespaceRef} {n x : String}

theorem registry?_updateRegistry (f : Registry → Registry) : registry? (w.updateRegistry r f) r' =
    if r = r' then (w.registry? r').map f else w.registry? r' := by
  unfold updateRegistry
  cases h : w.registry? r with
  | none =>
    by_cases hr : r = r'
    · simp [← hr, h]
    · simp [hr]
  | some registry => exact Heap.get?_set_map h f r'

theorem namespace?_updateNamespace (f : Namespace → Namespace) :
    (w.updateNamespace ns f).namespace? ns' =
      if ns = ns' then (w.namespace? ns').map f else w.namespace? ns' := by
  unfold updateNamespace
  cases h : w.namespace? ns with
  | none =>
    by_cases hns : ns = ns'
    · simp [← hns, h]
    · simp [hns]
  | some space => exact Heap.get?_set_map h f ns'

theorem namespaces_updateRegistry (f : Registry → Registry) :
    (w.updateRegistry r f).namespaces = w.namespaces := by
  unfold updateRegistry
  split <;> rfl

theorem vars_updateRegistry (f : Registry → Registry) : (w.updateRegistry r f).vars = w.vars := by
  unfold updateRegistry
  split <;> rfl

theorem registries_updateNamespace (f : Namespace → Namespace) :
    (w.updateNamespace ns f).registries = w.registries := by
  unfold updateNamespace
  split <;> rfl

theorem vars_updateNamespace (f : Namespace → Namespace) :
    (w.updateNamespace ns f).vars = w.vars := by
  unfold updateNamespace
  split <;> rfl

theorem vars_enter : (w.enter r n).vars = w.vars := vars_updateRegistry _

theorem vars_select : (w.select r n).vars = w.vars := vars_updateRegistry _

theorem namespaces_select : (w.select r n).namespaces = w.namespaces := namespaces_updateRegistry _

theorem registries_adopt : (w.adopt ns n).registries = w.registries := registries_updateNamespace _

theorem vars_refer (entries : List (String × Var)) : (w.refer ns entries).vars = w.vars :=
  vars_updateNamespace _

theorem registries_refer (entries : List (String × Var)) :
    (w.refer ns entries).registries = w.registries :=
  registries_updateNamespace _

theorem lookup_cons_ite {α : Type} (a : α) (l : List (String × α)) :
    ((n, a) :: l).lookup x = if x = n then some a else l.lookup x := by
  rw [List.lookup_cons]
  by_cases h : x = n
  · simp [h]
  · rw [if_neg h, beq_false_of_ne h]

theorem registered_enter : (w.enter r n).registered r' x =
    if r = r' ∧ (w.registry? r).isSome ∧ x = n then some w.namespaces.size
    else w.registered r' x := by
  have hregistry : registry? (w.enter r n) r' = _ := registry?_updateRegistry _
  unfold registered
  rw [hregistry]
  by_cases hr : r = r'
  · subst hr
    cases w.registry? r <;> simp [lookup_cons_ite]
  · simp [hr]

theorem selected_enter : (w.enter r n).selected r' = w.selected r' := by
  have hregistry : registry? (w.enter r n) r' = _ := registry?_updateRegistry _
  unfold selected
  rw [hregistry]
  by_cases hr : r = r'
  · subst hr
    cases w.registry? r <;> simp
  · simp [hr]

theorem selected_select : (w.select r n).selected r' =
    if r = r' ∧ (w.registry? r).isSome then some n else w.selected r' := by
  unfold selected
  rw [select, registry?_updateRegistry]
  by_cases hr : r = r'
  · subst hr
    cases w.registry? r <;> simp
  · simp [hr]

theorem registered_select : (w.select r n).registered r' x = w.registered r' x := by
  unfold registered
  rw [select, registry?_updateRegistry]
  by_cases hr : r = r'
  · subst hr
    cases w.registry? r <;> simp
  · simp [hr]

theorem namespace?_enter : (w.enter r n).namespace? ns =
    if ns = w.namespaces.size then some { name := n } else w.namespace? ns :=
  Heap.get?_push ..

theorem own_enter : (w.enter r n).own ns x = w.own ns x := by
  unfold own
  rw [namespace?_enter]
  by_cases h : ns = w.namespaces.size
  · have hnone : w.namespace? ns = none := Heap.get?_eq_none_iff.2 (Nat.le_of_eq h.symm)
    rw [if_pos h, hnone]
    rfl
  · rw [if_neg h]

theorem title_enter (h : w.title ns = some x) : (w.enter r n).title ns = some x := by
  unfold title at h ⊢
  rw [namespace?_enter, if_neg]
  · exact h
  · rintro rfl
    have hnone : w.namespace? w.namespaces.size = none := Heap.get?_eq_none_iff.2 (Nat.le_refl _)
    rw [hnone] at h
    cases h

theorem title_updateNamespace {f : Namespace → Namespace} (hf : ∀ s, (f s).name = s.name) :
    (w.updateNamespace ns f).title ns' = w.title ns' := by
  unfold title
  rw [namespace?_updateNamespace]
  by_cases hns : ns = ns'
  · subst hns
    cases w.namespace? ns <;> simp [hf]
  · simp [hns]

theorem title_adopt : (w.adopt ns n).title ns' = w.title ns' :=
  title_updateNamespace (w := w) (f := fun space => { space with vars := _ :: space.vars })
    fun _ => rfl

theorem title_refer (entries : List (String × Var)) :
    (w.refer ns entries).title ns' = w.title ns' :=
  title_updateNamespace fun _ => rfl

theorem own_refer (entries : List (String × Var)) :
    (w.refer ns entries).own ns' x = w.own ns' x := by
  unfold own
  rw [refer, namespace?_updateNamespace]
  by_cases hns : ns = ns'
  · subst hns
    cases w.namespace? ns <;> simp
  · simp [hns]

theorem own_adopt : (w.adopt ns n).own ns' x =
    if ns = ns' ∧ x = n then (w.title ns).map fun name => ⟨some name, ⟨none, n⟩, w.vars.size⟩
    else w.own ns' x := by
  have hspace : (w.adopt ns n).namespace? ns' = _ := namespace?_updateNamespace _
  unfold own title
  rw [hspace]
  by_cases hns : ns = ns'
  · subst hns
    cases h : w.namespace? ns <;> simp [lookup_cons_ite, title, h]
  · simp [hns]

end World

/-! ## Steps -/

/-- What is done to registries, namespaces and vars. -/
inductive Registry.Step (w : World) : World → Prop where
  | enter {r : RegistryRef} {name : String} :
      w.registered r name = none → Step w (w.enter r name)
  | select {r : RegistryRef} {name : String} :
      ((w.registry? r).isSome → (w.registered r name).isSome) → Step w (w.select r name)
  | adopt {ns : NamespaceRef} {name : String} : w.own ns name = none → Step w (w.adopt ns name)
  | refer (ns : NamespaceRef) (entries : List (String × Var)) : Step w (w.refer ns entries)
  | cell {cell : VarRef} {c : VarCell} :
      (w.Bound cell → c.value.isSome) → Step w { w with vars := w.vars.set cell c }
  | native (code : Native) : Step w { w with natives := w.natives.push code }

/-- The second world still has the namespaces and vars of the first, and bound vars are bound. -/
structure World.Retains (w w' : World) : Prop where
  registered {r : RegistryRef} {n : String} {ns : NamespaceRef} :
    w.registered r n = some ns → w'.registered r n = some ns
  title {ns : NamespaceRef} {n : String} : w.title ns = some n → w'.title ns = some n
  own {ns : NamespaceRef} {x : String} {v : Var} : w.own ns x = some v → w'.own ns x = some v
  bound {cell : VarRef} : w.Bound cell → w'.Bound cell
  size : w.vars.size ≤ w'.vars.size

/-- Where no cell changes, vars are bound as before. -/
theorem World.Retains.of_vars_eq {w w' : World} (hvars : w'.vars = w.vars)
    (hregistered : ∀ r n ns, w.registered r n = some ns → w'.registered r n = some ns)
    (htitle : ∀ ns n, w.title ns = some n → w'.title ns = some n)
    (hown : ∀ ns x v, w.own ns x = some v → w'.own ns x = some v) : w.Retains w' where
  registered := hregistered _ _ _
  title := htitle _ _
  own := hown _ _ _
  bound hb := by simpa only [Bound, varCell, hvars] using hb
  size := Nat.le_of_eq (congrArg Heap.size hvars.symm)

theorem World.Retains.refl (w : World) : Retains w w := ⟨id, id, id, id, Nat.le_refl _⟩

theorem World.Retains.trans {u v w : World} (h : Retains u v) (h' : Retains v w) : Retains u w :=
  ⟨h'.registered ∘ h.registered, h'.title ∘ h.title, h'.own ∘ h.own, h'.bound ∘ h.bound,
    Nat.le_trans h.size h'.size⟩

namespace Registry

variable {r : RegistryRef} {w w' : World}

/-- No step forgets. -/
theorem Step.retains (h : Step w w') : w.Retains w' := by
  cases h with
  | @enter r name hnone =>
    apply World.Retains.of_vars_eq World.vars_enter
    · intro r' n ns hns
      rw [World.registered_enter, if_neg]
      · exact hns
      · rintro ⟨rfl, -, rfl⟩
        rw [hnone] at hns
        cases hns
    · exact fun ns n => World.title_enter
    · intro ns x v hv
      rwa [World.own_enter]
  | @select r name hname =>
    apply World.Retains.of_vars_eq World.vars_select
    · intro r' n ns hns
      rwa [World.registered_select]
    · intro ns n hn
      simpa only [World.title, World.namespace?, World.namespaces_select] using hn
    · intro ns x v hv
      simpa only [World.own, World.namespace?, World.namespaces_select] using hv
  | @adopt ns name hnone =>
    have hvars : (w.adopt ns name).vars = w.vars.push {} := rfl
    refine ⟨fun hns => ?_, fun hn => ?_, fun hv => ?_, fun {cell} hb => ?_, ?_⟩
    · simpa only [World.registered, World.registry?, World.registries_adopt] using hns
    · rwa [World.title_adopt]
    · rw [World.own_adopt, if_neg]
      · exact hv
      · rintro ⟨rfl, rfl⟩
        rw [hnone] at hv
        cases hv
    · simp only [World.Bound, World.varCell, hvars, Heap.get?_push] at hb ⊢
      by_cases hcell : cell = w.vars.size
      · have hfresh : w.vars.get? cell = none := Heap.get?_eq_none_iff.2 (Nat.le_of_eq hcell.symm)
        rw [hfresh] at hb
        cases hb
      · rwa [if_neg hcell]
    · rw [hvars, Heap.size_push]
      omega
  | refer ns entries =>
    apply World.Retains.of_vars_eq (World.vars_refer entries)
    · intro r n ns hns
      simpa only [World.registered, World.registry?, World.registries_refer] using hns
    · intro ns n hn
      rwa [World.title_refer]
    · intro ns x v hv
      rwa [World.own_refer]
  | @cell cell c hc =>
    refine ⟨id, id, id, fun {i} hb => ?_, Nat.le_of_eq (Heap.size_set ..).symm⟩
    simp only [World.Bound, World.varCell, Heap.get?_set] at hc hb ⊢
    by_cases hi : cell = i ∧ cell < w.vars.size
    · rw [if_pos hi]
      exact hc (hi.1 ▸ hb)
    · rwa [if_neg hi]
  | native code => exact ⟨id, id, id, id, Nat.le_refl _⟩

/-- The current namespace is registered. Namespaces are registered under their names, and a var that
one has of its own names the namespace, goes by the name it has there and is the only one with its
cell. -/
structure Sound (r : RegistryRef) (w : World) : Prop where
  selected : ∃ name, w.selected r = some name ∧ (w.registered r name).isSome
  named {n : String} {ns : NamespaceRef} : w.registered r n = some ns → w.title ns = some n
  own {n x : String} {v : Var} : w.Has r n x v →
    v.ns = some n ∧ v.name = ⟨none, x⟩ ∧ v.cell < w.vars.size
  distinct {n n' x x' : String} {v v' : Var} : w.Has r n x v → w.Has r n' x' v' →
    v.cell = v'.cell → n = n' ∧ x = x'

/-- A step after which the registry has no new vars need only keep the namespaces in order. -/
theorem Sound.of_has (h : Sound r w) (hstep : w.Retains w')
    (hselected : ∃ name, w'.selected r = some name ∧ (w'.registered r name).isSome)
    (hnamed : ∀ n ns, w'.registered r n = some ns → w'.title ns = some n)
    (hhas : ∀ n x v, w'.Has r n x v → w.Has r n x v) : Sound r w' where
  selected := hselected
  named := hnamed _ _
  own hv := by
    obtain ⟨hns, hname, hcell⟩ := h.own (hhas _ _ _ hv)
    exact ⟨hns, hname, Nat.lt_of_lt_of_le hcell hstep.size⟩
  distinct hv hv' := h.distinct (hhas _ _ _ hv) (hhas _ _ _ hv')

/-- A step that touches neither registries nor the own vars of namespaces. -/
theorem Sound.of_same (h : Sound r w) (hstep : w.Retains w')
    (hregistries : w'.registries = w.registries)
    (hown : ∀ ns x, w'.own ns x = w.own ns x) : Sound r w' := by
  have hregistered (n : String) : w'.registered r n = w.registered r n := by
    simp only [World.registered, World.registry?, hregistries]
  have hselected : w'.selected r = w.selected r := by
    simp only [World.selected, World.registry?, hregistries]
  apply h.of_has hstep
  · simpa only [hselected, hregistered] using h.selected
  · intro n ns hns
    rw [hregistered] at hns
    exact hstep.title (h.named hns)
  · rintro n x v ⟨ns, hns, hv⟩
    rw [hregistered] at hns
    rw [hown] at hv
    exact ⟨ns, hns, hv⟩

theorem Step.sound (hstep : Step w w') (h : Sound r w) : Sound r w' := by
  have hretains := hstep.retains
  cases hstep with
  | @enter r' name hnone =>
    have hfresh (x : String) : w.own w.namespaces.size x = none := by
      unfold World.own
      rw [show w.namespace? w.namespaces.size = none from Heap.get?_eq_none_iff.2 (Nat.le_refl _)]
      rfl
    have hregistered {n : String} {ns : NamespaceRef}
        (hns : (w.enter r' name).registered r n = some ns) :
        w.registered r n = some ns ∨ n = name ∧ ns = w.namespaces.size := by
      rw [World.registered_enter] at hns
      split at hns
      · next hnew =>
        cases hns
        exact .inr ⟨hnew.2.2, rfl⟩
      · exact .inl hns
    apply h.of_has hretains
    · obtain ⟨current, hcurrent, hsome⟩ := h.selected
      obtain ⟨ns, hns⟩ := Option.isSome_iff_exists.1 hsome
      exact ⟨current, by rwa [World.selected_enter], by rw [hretains.registered hns]; rfl⟩
    · intro n ns hns
      rcases hregistered hns with hns | ⟨rfl, rfl⟩
      · exact hretains.title (h.named hns)
      · rw [World.title, World.namespace?_enter, if_pos rfl]
        rfl
    · rintro n x v ⟨ns, hns, hv⟩
      rw [World.own_enter] at hv
      rcases hregistered hns with hns | ⟨rfl, rfl⟩
      · exact ⟨ns, hns, hv⟩
      · rw [hfresh] at hv
        cases hv
  | @select r' name hname =>
    apply h.of_has hretains
    · rw [World.selected_select]
      split
      · next hr =>
        obtain ⟨rfl, hexists⟩ := hr
        exact ⟨name, rfl, by rw [World.registered_select]; exact hname hexists⟩
      · simpa only [World.registered_select] using h.selected
    · intro n ns hns
      rw [World.registered_select] at hns
      exact hretains.title (h.named hns)
    · rintro n x v ⟨ns, hns, hv⟩
      rw [World.registered_select] at hns
      simp only [World.own, World.namespace?, World.namespaces_select] at hv
      exact ⟨ns, hns, hv⟩
  | @adopt ns name hnone =>
    have hregistered (n : String) : (w.adopt ns name).registered r n = w.registered r n := by
      simp only [World.registered, World.registry?, World.registries_adopt]
    -- a var is an old one, or the new one in its namespace
    have hhas {n x : String} {v : Var} (hv : (w.adopt ns name).Has r n x v) : w.Has r n x v ∨
        w.registered r n = some ns ∧ x = name ∧ v = ⟨some n, ⟨none, name⟩, w.vars.size⟩ := by
      obtain ⟨ns', hns', hv⟩ := hv
      rw [hregistered] at hns'
      rw [World.own_adopt] at hv
      split at hv
      · next hnew =>
        obtain ⟨rfl, rfl⟩ := hnew
        rw [h.named hns'] at hv
        cases hv
        exact .inr ⟨hns', rfl, rfl⟩
      · exact .inl ⟨ns', hns', hv⟩
    refine ⟨?_, fun {n ns'} hns' => ?_, fun {n x v} hv => ?_,
      fun {n n' x x' v v'} hv hv' hcell => ?_⟩
    · have hselected : (w.adopt ns name).selected r = w.selected r := by
        simp only [World.selected, World.registry?, World.registries_adopt]
      simpa only [hselected, hregistered] using h.selected
    · rw [hregistered] at hns'
      exact hretains.title (h.named hns')
    · have hsize : (w.adopt ns name).vars.size = w.vars.size + 1 := Heap.size_push ..
      rw [hsize]
      rcases hhas hv with hold | ⟨-, rfl, rfl⟩
      · obtain ⟨hvns, hname, hlt⟩ := h.own hold
        exact ⟨hvns, hname, Nat.lt_succ_of_lt hlt⟩
      · exact ⟨rfl, rfl, Nat.lt_succ_self _⟩
    · rcases hhas hv with hold | ⟨hns, rfl, rfl⟩ <;> rcases hhas hv' with hold' | ⟨hns', rfl, rfl⟩
      · exact h.distinct hold hold' hcell
      · exact absurd hcell (Nat.ne_of_lt (h.own hold).2.2)
      · exact absurd hcell.symm (Nat.ne_of_lt (h.own hold').2.2)
      · have hn := h.named hns
        rw [h.named hns'] at hn
        cases hn
        exact ⟨rfl, rfl⟩
  | refer ns entries =>
    exact h.of_same hretains (World.registries_refer entries) fun _ _ => World.own_refer entries
  | cell hc => exact h.of_same hretains rfl fun _ _ => rfl
  | native code => exact h.of_same hretains rfl fun _ _ => rfl

/-! ## Operations -/

/-- What can be asked of a registry, of any namespace and of any var. -/
inductive Operation where
  | ensure (name : String)
  | setCurrent (name : String)
  | current
  | find (name : String)
  | resolve (symbol : Name)
  | intern (ns : NamespaceRef) (name : String)
  | internValue (ns : NamespaceRef) (name : String) (value : Value)
  | defineNative (ns : NamespaceRef) (name : String) (code : Native)
  | findVar (ns : NamespaceRef) (name : String)
  | resolveIn (ns : NamespaceRef) (symbol : Name)
  | refer (ns : NamespaceRef) (name : String) (v : Var)
  | referAll (ns other : NamespaceRef)
  | register (env : FrameRef)
  | bind (v : Var) (value : Value)
  | setMetadata (v : Var) (metadata : Option Dict)

def Operation.run (r : RegistryRef) : Operation → Run Unit
  | ensure name => do let _ ← Registry.ensure r name
  | setCurrent name => do let _ ← Registry.setCurrent r name
  | current => do let _ ← Registry.current r
  | find name => do let _ ← Registry.find r name
  | resolve symbol => do let _ ← Registry.resolve r symbol
  | intern ns name => do let _ ← Namespace.intern ns name
  | internValue ns name value => do let _ ← Namespace.internValue ns name value
  | defineNative ns name code => do let _ ← Namespace.defineNative ns name code
  | findVar ns name => do let _ ← Namespace.findVar ns name
  | resolveIn ns symbol => do let _ ← Namespace.resolve ns symbol
  | refer ns name v => Namespace.refer ns name v
  | referAll ns other => Namespace.referAll ns other
  | register env => Encoding.register env
  | bind v value => v.bind value
  | setMetadata v metadata => v.setMetadata metadata

def Operation.runAll (r : RegistryRef) : List Operation → Run Unit
  | [] => return ()
  | op :: ops => do
    op.run r
    runAll r ops

theorem ensure_of_registered {name : String} {ns : NamespaceRef}
    (h : w.registered r name = some ns) : ensure r name w = some (.ok ns, w) := by
  have hfind : find r name w = some (.ok (some ns), w) := by rw [← h]; rfl
  rw [ensure, Run.bind_of_ok hfind]
  rfl

theorem ensure_of_none {name : String} (h : w.registered r name = none) :
    ensure r name w = some (.ok w.namespaces.size, w.enter r name) := by
  have hfind : find r name w = some (.ok none, w) := by rw [← h]; rfl
  have henter : { w with namespaces := w.namespaces.push { name } }.updateRegistry r
      (fun registry =>
        { registry with namespaces := (name, w.namespaces.size) :: registry.namespaces }) =
      w.enter r name := by
    unfold World.enter World.updateRegistry World.registry?
    cases w.registries.get? r <;> rfl
  rw [ensure, Run.bind_of_ok hfind, ← henter]
  rfl

end Registry

namespace Namespace

variable {ns : NamespaceRef} {name : String} {w : World}

theorem intern_of_own {v : Var} (h : w.own ns name = some v) :
    intern ns name w = some (.ok v, w) := by
  have hfind : findVar ns name w = some (.ok (some v), w) := by rw [← h]; rfl
  rw [intern, Run.bind_of_ok hfind]
  rfl

theorem intern_of_none (h : w.own ns name = none) : intern ns name w =
    some (.ok ⟨some ((w.title ns).getD ""), ⟨none, name⟩, w.vars.size⟩, w.adopt ns name) := by
  have hfind : findVar ns name w = some (.ok none, w) := by rw [← h]; rfl
  have hadopt : { w with vars := w.vars.push {} }.updateNamespace ns (fun space => { space with
      vars := (name, ⟨some ((w.title ns).getD ""), ⟨none, name⟩, w.vars.size⟩) :: space.vars }) =
      w.adopt ns name := by
    unfold World.adopt World.updateNamespace World.namespace?
    cases w.namespaces.get? ns <;> rfl
  rw [intern, Run.bind_of_ok hfind, ← hadopt]
  rfl

end Namespace

namespace Registry

/-! An invariant that every step keeps is kept by every operation, and no operation fails. -/

section Operations

variable {r : RegistryRef} {I : World → Prop} (hI : ∀ {w w'}, I w → Step w w' → I w')

include hI

theorem ensure_returnsIn (name : String) : (ensure r name).ReturnsIn I fun _ => True := by
  intro w hw
  cases h : w.registered r name with
  | some ns => exact ⟨ns, w, ensure_of_registered h, hw, trivial⟩
  | none => exact ⟨_, _, ensure_of_none h, hI hw (.enter h), trivial⟩

theorem current_returnsIn : (current r).ReturnsIn I fun _ => True :=
  (ReturnsIn.reading _).bind fun name _ => ensure_returnsIn hI name

/-- Selecting is safe since the namespace has just been found or entered. -/
theorem setCurrent_returnsIn (name : String) : (setCurrent r name).ReturnsIn I fun _ => True := by
  intro w hw
  cases h : w.registered r name with
  | some ns =>
    have hselect : Step w (w.select r name) := .select fun _ => by rw [h]; rfl
    refine ⟨ns, w.select r name, ?_, hI hw hselect, trivial⟩
    rw [setCurrent, Run.bind_of_ok (ensure_of_registered h)]
    rfl
  | none =>
    have hselect : Step (w.enter r name) ((w.enter r name).select r name) := by
      apply Step.select
      intro hexists
      have hregistry : World.registry? (w.enter r name) r = _ := World.registry?_updateRegistry _
      rw [hregistry, if_pos rfl, Option.isSome_map] at hexists
      rw [World.registered_enter, if_pos ⟨rfl, hexists, rfl⟩]
      rfl
    refine ⟨w.namespaces.size, (w.enter r name).select r name, ?_, hI (hI hw (.enter h)) hselect,
      trivial⟩
    rw [setCurrent, Run.bind_of_ok (ensure_of_none h)]
    rfl

theorem resolve_returnsIn (symbol : Name) : (resolve r symbol).ReturnsIn I fun _ => True := by
  unfold resolve
  split
  · refine (ReturnsIn.reading _).bind fun ns _ => ?_
    cases ns with
    | some ns => exact .reading _
    | none => exact .pure trivial
  · exact (current_returnsIn hI).bind fun ns _ => .reading _

theorem intern_returnsIn (ns : NamespaceRef) (name : String) :
    (Namespace.intern ns name).ReturnsIn I fun _ => True := by
  intro w hw
  cases h : w.own ns name with
  | some v => exact ⟨v, w, Namespace.intern_of_own h, hw, trivial⟩
  | none => exact ⟨_, _, Namespace.intern_of_none h, hI hw (.adopt h), trivial⟩

theorem bind_returnsIn (v : Var) (value : Value) : (v.bind value).ReturnsIn I fun _ => True :=
  .change fun _ hw => ⟨hI hw (.cell fun _ => rfl), trivial⟩

theorem setMetadata_returnsIn (v : Var) (metadata : Option Dict) :
    (v.setMetadata metadata).ReturnsIn I fun _ => True :=
  .change fun _ hw => ⟨hI hw (.cell id), trivial⟩

theorem internValue_returnsIn (ns : NamespaceRef) (name : String) (value : Value) :
    (Namespace.internValue ns name value).ReturnsIn I fun _ => True :=
  (intern_returnsIn hI ns name).bind fun v _ =>
    (bind_returnsIn hI v value).bind fun _ _ => .pure trivial

theorem defineNative_returnsIn (ns : NamespaceRef) (name : String) (code : Native) :
    (Namespace.defineNative ns name code).ReturnsIn I fun _ => True := by
  have hproc : (Proc.new name code).ReturnsIn I fun _ => True :=
    .change fun _ hw => ⟨hI hw (.native code), trivial⟩
  exact hproc.bind fun p _ => internValue_returnsIn hI ns name (.proc p)

theorem register_returnsIn (env : FrameRef) :
    (Encoding.register env).ReturnsIn I fun _ => True := by
  refine (ReturnsIn.reading _).bind fun r _ => ?_
  refine (ensure_returnsIn hI _).bind fun ns _ => ?_
  refine (defineNative_returnsIn hI ns _ _).bind fun _ _ => ?_
  exact (defineNative_returnsIn hI ns _ _).bind fun _ _ => .pure trivial

theorem Operation.run_returnsIn (op : Operation) : (op.run r).ReturnsIn I fun _ => True := by
  have hdrop {α : Type} {x : Run α} (hx : x.ReturnsIn I fun _ => True) :
      (x >>= fun _ => pure ()).ReturnsIn I fun _ => True := hx.bind fun _ _ => .pure trivial
  cases op with
  | ensure name => exact hdrop (ensure_returnsIn hI name)
  | setCurrent name => exact hdrop (setCurrent_returnsIn hI name)
  | current => exact hdrop (current_returnsIn hI)
  | find name => exact hdrop (.reading _)
  | resolve symbol => exact hdrop (resolve_returnsIn hI symbol)
  | intern ns name => exact hdrop (intern_returnsIn hI ns name)
  | internValue ns name value => exact hdrop (internValue_returnsIn hI ns name value)
  | defineNative ns name code => exact hdrop (defineNative_returnsIn hI ns name code)
  | findVar ns name => exact hdrop (.reading _)
  | resolveIn ns symbol => exact hdrop (.reading _)
  | refer ns name v => exact .change fun w hw => ⟨hI hw (.refer ns [(name, v)]), trivial⟩
  | referAll ns other =>
    refine (ReturnsIn.reading _).bind fun own _ => ?_
    exact .change fun w hw => ⟨hI hw (.refer ns own), trivial⟩
  | register env => exact register_returnsIn hI env
  | bind v value => exact bind_returnsIn hI v value
  | setMetadata v metadata => exact setMetadata_returnsIn hI v metadata

theorem Operation.runAll_returnsIn (ops : List Operation) :
    (runAll r ops).ReturnsIn I fun _ => True := by
  induction ops with
  | nil => exact .pure trivial
  | cons op ops ih => exact (op.run_returnsIn hI).bind fun _ _ => ih

end Operations

/-! ## Whole runs -/

/-- A new registry is sound: it has two namespaces without vars. -/
theorem new_sound (w : World) :
    ∃ w₀, new w = some (.ok w.registries.size, w₀) ∧ Sound w.registries.size w₀ := by
  refine ⟨_, rfl, ?_⟩
  generalize hw₀ : { w with namespaces := _, registries := _ } = w₀
  have hregistry : w₀.registry? w.registries.size = some ⟨[(coreName, w.namespaces.size),
      (userName, w.namespaces.size + 1)], userName⟩ := by
    subst hw₀
    simp [World.registry?, Heap.get?_push]
  have hcore : w₀.namespace? w.namespaces.size = some { name := coreName } := by
    subst hw₀
    simp [World.namespace?, Heap.get?_push]
  have huser : w₀.namespace? (w.namespaces.size + 1) = some { name := userName } := by
    subst hw₀
    simp [World.namespace?, Heap.get?_push]
  have hregistered {n : String} {ns : NamespaceRef}
      (h : w₀.registered w.registries.size n = some ns) :
      w₀.namespace? ns = some { name := n } := by
    rw [World.registered, hregistry, Option.bind_some, World.lookup_cons_ite,
      World.lookup_cons_ite] at h
    split at h
    · next hn =>
      cases h
      rw [hcore, hn]
    · split at h
      · next hn =>
        cases h
        rw [huser, hn]
      · cases h
  have hnone {n x : String} {v : Var} (hv : w₀.Has w.registries.size n x v) : False := by
    obtain ⟨ns, hns, hv⟩ := hv
    rw [World.own, hregistered hns] at hv
    cases hv
  refine ⟨⟨userName, ?_, ?_⟩, fun hns => ?_, fun hv => (hnone hv).elim, fun hv => (hnone hv).elim⟩
  · rw [World.selected, hregistry]
    rfl
  · rw [World.registered, hregistry, Option.bind_some, World.lookup_cons_ite,
      World.lookup_cons_ite, if_neg (by decide), if_pos rfl]
    rfl
  · rw [World.title, hregistered hns]
    rfl

/-- A sound registry stays sound in a run, which never fails and forgets nothing. -/
theorem Sound.runAll {r : RegistryRef} {w : World} (h : Sound r w) (ops : List Operation) :
    ∃ w', Operation.runAll r ops w = some (.ok (), w') ∧ Sound r w' ∧ w.Retains w' := by
  have hkept {u v : World} (hu : Sound r u ∧ w.Retains u) (hstep : Step u v) :
      Sound r v ∧ w.Retains v := ⟨hstep.sound hu.1, hu.2.trans hstep.retains⟩
  obtain ⟨_, w', hrun, hw', -⟩ := Operation.runAll_returnsIn (r := r) hkept ops w ⟨h, .refl w⟩
  exact ⟨w', hrun, hw'⟩

/-- Interning is one step at most, and afterwards the namespace has the var. -/
theorem Sound.intern {r : RegistryRef} {w w' : World} {n x : String} {ns : NamespaceRef} {v : Var}
    (h : Sound r w) (hns : w.registered r n = some ns)
    (hrun : Namespace.intern ns x w = some (.ok v, w')) :
    Sound r w' ∧ w'.registered r n = some ns ∧ w'.own ns x = some v := by
  cases hv : w.own ns x with
  | some v₀ =>
    rw [Namespace.intern_of_own hv] at hrun
    cases hrun
    exact ⟨h, hns, hv⟩
  | none =>
    have hstep : Step w (w.adopt ns x) := .adopt hv
    rw [Namespace.intern_of_none hv] at hrun
    cases hrun
    refine ⟨hstep.sound h, hstep.retains.registered hns, ?_⟩
    rw [World.own_adopt, if_pos ⟨rfl, rfl⟩, h.named hns]
    rfl

end Registry

/-- The run gives the value and changes nothing. -/
def Run.Reads {α : Type} (x : Run α) (w : World) (a : α) : Prop := x w = some (.ok a, w)

theorem Run.reads_gets {α : Type} {f : World → α} {w : World} {a : α} :
    (Run.gets f).Reads w a ↔ f w = a := by
  simp [Reads, Run.gets]

namespace Registry

theorem reads_find {r : RegistryRef} {w : World} {n : String} {o : Option NamespaceRef} :
    (find r n).Reads w o ↔ w.registered r n = o :=
  Run.reads_gets

theorem reads_findVar {ns : NamespaceRef} {w : World} {x : String} {o : Option Var} :
    (Namespace.findVar ns x).Reads w o ↔ w.own ns x = o :=
  Run.reads_gets

theorem resolve_qualified {r : RegistryRef} {w : World} {symbol : Name} {n : String}
    (h : symbol.ns = some n) :
    resolve r symbol w = some (.ok ((w.registered r n).bind (w.own · symbol.name)), w) := by
  have hfind : find r n w = some (.ok (w.registered r n), w) := rfl
  simp only [resolve, h, Run.bind_of_ok hfind]
  cases w.registered r n <;> rfl

theorem reads_resolve {r : RegistryRef} {w : World} {n x : String} {v : Var} :
    (resolve r ⟨some n, x⟩).Reads w (some v) ↔ w.Has r n x v := by
  have hresolve : resolve r ⟨some n, x⟩ w = some (.ok ((w.registered r n).bind (w.own · x)), w) :=
    resolve_qualified rfl
  simp [Run.Reads, hresolve, World.Has, Option.bind_eq_some_iff]

/-- Whatever has been done since a registry was new, its current namespace is registered; the
namespace under a name has that name and stays; an own var belongs to its namespace under its name;
vars of different names have different cells; what has been interned is found again, by interning,
finding and resolving alike; and what is bound stays bound. -/
theorem sound_over_runs (w : World) : ∃ r w₀, new w = some (.ok r, w₀) ∧
    ∀ ops, ∃ w₁, Operation.runAll r ops w₀ = some (.ok (), w₁) ∧
      (∃ name ns, (currentName r).Reads w₁ name ∧ (find r name).Reads w₁ (some ns) ∧
        (current r).Reads w₁ ns) ∧
      (∀ n ns, (find r n).Reads w₁ (some ns) → (Namespace.nameOf ns).Reads w₁ n) ∧
      (∀ n ns x v, (find r n).Reads w₁ (some ns) → (Namespace.findVar ns x).Reads w₁ (some v) →
        v.ns = some n ∧ v.name = ⟨none, x⟩) ∧
      (∀ n n' x x' v v', (resolve r ⟨some n, x⟩).Reads w₁ (some v) →
        (resolve r ⟨some n', x'⟩).Reads w₁ (some v') → (n, x) ≠ (n', x') → v.cell ≠ v'.cell) ∧
      (∀ n ns x, (find r n).Reads w₁ (some ns) →
        ∃ v w', Namespace.intern ns x w₁ = some (.ok v, w') ∧
          ∀ later, ∃ w₂, Operation.runAll r later w' = some (.ok (), w₂) ∧
            (ensure r n).Reads w₂ ns ∧ (Namespace.intern ns x).Reads w₂ v ∧
            (Namespace.findVar ns x).Reads w₂ (some v) ∧
            (resolve r ⟨some n, x⟩).Reads w₂ (some v)) ∧
      ∀ later, ∃ w₂, Operation.runAll r later w₁ = some (.ok (), w₂) ∧
        (∀ n ns, (find r n).Reads w₁ (some ns) → (find r n).Reads w₂ (some ns)) ∧
        ∀ v : Var, (∃ a, v.value?.Reads w₁ (some a)) → ∃ a, v.value?.Reads w₂ (some a) := by
  obtain ⟨w₀, hnew, hw₀⟩ := new_sound w
  refine ⟨w.registries.size, w₀, hnew, fun ops => ?_⟩
  generalize w.registries.size = r at hw₀ ⊢
  obtain ⟨w₁, hops, hw₁, -⟩ := hw₀.runAll ops
  refine ⟨w₁, hops, ?_, ?_, ?_, ?_, ?_, ?_⟩
  · obtain ⟨name, hname, hsome⟩ := hw₁.selected
    obtain ⟨ns, hns⟩ := Option.isSome_iff_exists.1 hsome
    have hcurrent : currentName r w₁ = some (.ok name, w₁) := by
      have hselected : ((w₁.registry? r).map Registry.selected).getD userName = name := by
        rw [show (w₁.registry? r).map Registry.selected = some name from hname]
        rfl
      rw [← hselected]
      rfl
    refine ⟨name, ns, hcurrent, reads_find.2 hns, ?_⟩
    rw [Run.Reads, current, Run.bind_of_ok hcurrent]
    exact ensure_of_registered hns
  · intro n ns hns
    have htitle : (w₁.namespace? ns).map Namespace.name = some n := hw₁.named (reads_find.1 hns)
    apply Run.reads_gets.2
    rw [htitle]
    rfl
  · intro n ns x v hns hv
    obtain ⟨hvns, hname, -⟩ := hw₁.own ⟨ns, reads_find.1 hns, reads_findVar.1 hv⟩
    exact ⟨hvns, hname⟩
  · intro n n' x x' v v' hv hv' hne hcell
    obtain ⟨rfl, rfl⟩ := hw₁.distinct (reads_resolve.1 hv) (reads_resolve.1 hv') hcell
    exact hne rfl
  · intro n ns x hns
    obtain ⟨v, w', hintern, -⟩ :=
      intern_returnsIn (I := fun _ => True) (fun _ _ => trivial) ns x w₁ trivial
    obtain ⟨hw', hns', hv⟩ := hw₁.intern (reads_find.1 hns) hintern
    refine ⟨v, w', hintern, fun later => ?_⟩
    obtain ⟨w₂, hlater, -, hretains⟩ := hw'.runAll later
    have hns₂ := hretains.registered hns'
    have hv₂ := hretains.own hv
    exact ⟨w₂, hlater, ensure_of_registered hns₂, Namespace.intern_of_own hv₂,
      reads_findVar.2 hv₂, reads_resolve.2 ⟨ns, hns₂, hv₂⟩⟩
  · intro later
    obtain ⟨w₂, hlater, -, hretains⟩ := hw₁.runAll later
    refine ⟨w₂, hlater, fun n ns hns => ?_, fun v hv => ?_⟩
    · exact reads_find.2 (hretains.registered (reads_find.1 hns))
    · obtain ⟨a, ha⟩ := hv
      have hbound : w₁.Bound v.cell := by
        rw [World.Bound, Run.reads_gets.1 ha]
        rfl
      obtain ⟨b, hb⟩ := Option.isSome_iff_exists.1 (hretains.bound hbound)
      exact ⟨b, Run.reads_gets.2 hb⟩

end Registry

end LispKernel
