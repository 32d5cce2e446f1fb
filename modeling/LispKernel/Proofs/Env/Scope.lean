import LispKernel.Proofs.Namespace.Resolution

/-!
# Scopes

What has been done to environments is kept as a history, and what a symbol stands for is said of the
history alone: frames and their parents are those that were made, and a frame binds a symbol to the
value that was defined last. However frames are shared, resolving a symbol finds just that, and a
new definition is seen from exactly those environments where nothing nearer is in its way.
-/
namespace LispKernel.Env

/-- What is done to environments. -/
inductive Event where
  | root (env : FrameRef) (registry : RegistryRef)
  | child (env parent : FrameRef)
  | define (env : FrameRef) (symbol : Name) (value : Value)

/-- The history makes the environment. -/
def Made (h : List Event) (env : FrameRef) : Prop :=
  (∃ registry, .root env registry ∈ h) ∨ ∃ parent, .child env parent ∈ h

/-- The value last defined for a symbol in a frame, where the latest event comes first. -/
def latest (env : FrameRef) (symbol : Name) : List Event → Option Value
  | [] => none
  | .define f s v :: h => if f = env ∧ s = symbol then some v else latest env symbol h
  | _ :: h => latest env symbol h

/-- The frames from an environment to its root, the innermost first, and the registry of the
root. -/
inductive Chain (h : List Event) : FrameRef → List FrameRef → RegistryRef → Prop where
  | root {env : FrameRef} {registry : RegistryRef} :
      .root env registry ∈ h → Chain h env [env] registry
  | child {env parent : FrameRef} {frames : List FrameRef} {registry : RegistryRef} :
      .child env parent ∈ h → Chain h parent frames registry →
      Chain h env (env :: frames) registry

/-- The frame is in the chain, and none inside it binds the symbol. -/
def Reaches (h : List Event) (frames : List FrameRef) (frame : FrameRef) (symbol : Name) : Prop :=
  ∃ inner outer, frames = inner ++ frame :: outer ∧ ∀ f ∈ inner, latest f symbol h = none

/-- The var that a namespace of a registry has of its own. -/
def ownVar (w : World) (registry : RegistryRef) (ns name : String) : Option Var :=
  (w.registered registry ns).bind (w.own · name)

/-- The var that a namespace of a registry refers to. -/
def referredVar (w : World) (registry : RegistryRef) (ns name : String) : Option Var :=
  (w.registered registry ns).bind fun n => (w.namespace? n).bind fun space =>
    space.refers.lookup name

/-- What a symbol stands for in the scope of a chain: the nearest binding, or else the var of the
current namespace, where its own var hides a referred one even while it is unbound. A qualified
symbol stands for the own var of its namespace and for nothing else. -/
inductive Stands (h : List Event) (w : World) (frames : List FrameRef) (registry : RegistryRef)
    (symbol : Name) : Option Value → Prop where
  | bound {f : FrameRef} {value : Value} : symbol.ns = none → Reaches h frames f symbol →
      latest f symbol h = some value → Stands h w frames registry symbol (some value)
  | own {v : Var} : symbol.ns = none → (∀ f ∈ frames, latest f symbol h = none) →
      ownVar w registry (w.currentName registry) symbol.name = some v →
      Stands h w frames registry symbol (w.varCell v.cell).value
  | referred {v : Var} : symbol.ns = none → (∀ f ∈ frames, latest f symbol h = none) →
      ownVar w registry (w.currentName registry) symbol.name = none →
      referredVar w registry (w.currentName registry) symbol.name = some v →
      Stands h w frames registry symbol (w.varCell v.cell).value
  | unknown : symbol.ns = none → (∀ f ∈ frames, latest f symbol h = none) →
      ownVar w registry (w.currentName registry) symbol.name = none →
      referredVar w registry (w.currentName registry) symbol.name = none →
      Stands h w frames registry symbol none
  | qualified {ns : String} {v : Var} : symbol.ns = some ns →
      ownVar w registry ns symbol.name = some v →
      Stands h w frames registry symbol (w.varCell v.cell).value
  | unknownQualified {ns : String} : symbol.ns = some ns →
      ownVar w registry ns symbol.name = none → Stands h w frames registry symbol none

/-- The worlds to which a history leads. Between its events anything may happen that leaves frames
alone. -/
inductive Forest : List Event → World → Prop where
  | empty {w : World} : w.frames.size = 0 → Forest [] w
  | other {h : List Event} {w w' : World} : Forest h w → w'.frames = w.frames → Forest h w'
  | new {h : List Event} {w w' : World} {env : FrameRef} : Forest h w →
      Env.new w = some (.ok env, w') → Forest (.root env w.registries.size :: h) w'
  | withRegistry {h : List Event} {w w' : World} {env : FrameRef} {registry : RegistryRef} :
      Forest h w → Env.withRegistry registry w = some (.ok env, w') →
      Forest (.root env registry :: h) w'
  | child {h : List Event} {w w' : World} {env parent : FrameRef} : Forest h w → Made h parent →
      Env.child parent w = some (.ok env, w') → Forest (.child env parent :: h) w'
  | define {h : List Event} {w w' : World} {env : FrameRef} {symbol : Name} {value : Value} :
      Forest h w → Made h env → Env.define env symbol value w = some (.ok (), w') →
      Forest (.define env symbol value :: h) w'

/-! ## Frames are what the history says -/

/-- How a frame is made. -/
def Event.ofFrame (env : FrameRef) (f : Frame) : Event :=
  match f.parent with
  | none => .root env f.registry
  | some parent => .child env parent

namespace Event

variable {env env' parent : FrameRef} {registry : RegistryRef} {f : Frame}

theorem ofFrame_eq_root :
    ofFrame env' f = .root env registry ↔ env' = env ∧ f.parent = none ∧ f.registry = registry := by
  unfold ofFrame
  cases f.parent <;> simp

theorem ofFrame_eq_child :
    ofFrame env' f = .child env parent ↔ env' = env ∧ f.parent = some parent := by
  unfold ofFrame
  cases f.parent <;> simp

end Event

/-- The frames of the world are those that the history makes, with the values that it defines. Each
is younger than its parent and has the registry of its parent. -/
structure Recorded (h : List Event) (w : World) : Prop where
  frame {e : Event} : e ∈ h → (∀ env symbol value, e ≠ .define env symbol value) →
    ∃ env f, w.frames.get? env = some f ∧ e = .ofFrame env f
  event {env : FrameRef} {f : Frame} : w.frames.get? env = some f → .ofFrame env f ∈ h
  parent {env parent : FrameRef} {f : Frame} : w.frames.get? env = some f →
    f.parent = some parent →
    parent < env ∧ ∃ g, w.frames.get? parent = some g ∧ g.registry = f.registry
  bindings {env : FrameRef} {f : Frame} (symbol : Name) : w.frames.get? env = some f →
    f.bindings.lookup symbol = latest env symbol h
  unmade {env : FrameRef} (symbol : Name) : w.frames.size ≤ env → latest env symbol h = none

variable {h : List Event} {w w' : World} {env : FrameRef} {frames : List FrameRef}
  {registry : RegistryRef}

namespace Recorded

theorem root_iff (hr : Recorded h w) : .root env registry ∈ h ↔
    ∃ f, w.frames.get? env = some f ∧ f.parent = none ∧ f.registry = registry := by
  constructor
  · intro he
    obtain ⟨env', f, hf, he⟩ := hr.frame he (by simp)
    obtain ⟨rfl, hparent⟩ := Event.ofFrame_eq_root.1 he.symm
    exact ⟨f, hf, hparent⟩
  · rintro ⟨f, hf, hparent⟩
    have he := hr.event hf
    rwa [Event.ofFrame_eq_root.2 ⟨rfl, hparent⟩] at he

theorem child_iff (hr : Recorded h w) {parent : FrameRef} : .child env parent ∈ h ↔
    ∃ f, w.frames.get? env = some f ∧ f.parent = some parent := by
  constructor
  · intro he
    obtain ⟨env', f, hf, he⟩ := hr.frame he (by simp)
    obtain ⟨rfl, hparent⟩ := Event.ofFrame_eq_child.1 he.symm
    exact ⟨f, hf, hparent⟩
  · rintro ⟨f, hf, hparent⟩
    have he := hr.event hf
    rwa [Event.ofFrame_eq_child.2 ⟨rfl, hparent⟩] at he

theorem made_iff (hr : Recorded h w) : Made h env ↔ ∃ f, w.frames.get? env = some f := by
  simp only [Made, hr.root_iff, hr.child_iff]
  constructor
  · rintro (⟨_, f, hf, -⟩ | ⟨_, f, hf, -⟩) <;> exact ⟨f, hf⟩
  · rintro ⟨f, hf⟩
    cases hparent : f.parent with
    | none => exact .inl ⟨_, f, hf, hparent, rfl⟩
    | some parent => exact .inr ⟨parent, f, hf, hparent⟩

theorem empty (hw : w.frames.size = 0) : Recorded [] w := by
  have hnone (env : FrameRef) : w.frames.get? env = none :=
    Heap.get?_eq_none_iff.2 (by omega)
  constructor <;> simp [hnone, latest]

theorem of_frames (hr : Recorded h w) (hframes : w'.frames = w.frames) : Recorded h w' := by
  constructor <;> simp only [hframes]
  · exact hr.frame
  · exact hr.event
  · exact hr.parent
  · exact hr.bindings
  · exact hr.unmade

theorem latest_ofFrame (env i : FrameRef) (symbol : Name) (f : Frame) (h : List Event) :
    latest env symbol (.ofFrame i f :: h) = latest env symbol h := by
  unfold Event.ofFrame
  cases f.parent <;> rfl

/-- A new frame without bindings. -/
theorem push (hr : Recorded h w) {f : Frame} (hf : f.bindings = [])
    (hparent : ∀ parent, f.parent = some parent →
      ∃ g, w.frames.get? parent = some g ∧ g.registry = f.registry)
    (hframes : w'.frames = w.frames.push f) :
    Recorded (.ofFrame w.frames.size f :: h) w' := by
  have hnew : w'.frames.get? w.frames.size = some f := by
    rw [hframes, Heap.get?_push, if_pos rfl]
  have hold {env : FrameRef} {g : Frame} (hg : w.frames.get? env = some g) :
      w'.frames.get? env = some g := by
    rw [hframes, Heap.get?_push, if_neg (Nat.ne_of_lt (Heap.lt_size_of_get? hg)), hg]
  have hcases {env : FrameRef} {g : Frame} (hg : w'.frames.get? env = some g) :
      (env = w.frames.size ∧ g = f) ∨ w.frames.get? env = some g := by
    rw [hframes, Heap.get?_push] at hg
    split at hg
    · next henv =>
      cases hg
      exact .inl ⟨henv, rfl⟩
    · exact .inr hg
  refine ⟨fun he hne => ?_, fun hg => ?_, fun hg hp => ?_, fun symbol hg => ?_,
    fun symbol henv => ?_⟩
  · rcases List.mem_cons.1 he with rfl | he
    · exact ⟨_, f, hnew, rfl⟩
    · obtain ⟨env, g, hg, he⟩ := hr.frame he hne
      exact ⟨env, g, hold hg, he⟩
  · rcases hcases hg with ⟨rfl, rfl⟩ | hg
    · exact List.mem_cons_self
    · exact List.mem_cons_of_mem _ (hr.event hg)
  · rcases hcases hg with ⟨rfl, rfl⟩ | hg
    · obtain ⟨g, hg, hregistry⟩ := hparent _ hp
      exact ⟨Heap.lt_size_of_get? hg, g, hold hg, hregistry⟩
    · obtain ⟨hlt, g, hg, hregistry⟩ := hr.parent hg hp
      exact ⟨hlt, g, hold hg, hregistry⟩
  · rw [latest_ofFrame]
    rcases hcases hg with ⟨rfl, rfl⟩ | hg
    · rw [hf, hr.unmade symbol (Nat.le_refl _)]
      rfl
    · exact hr.bindings symbol hg
  · rw [latest_ofFrame]
    rw [hframes, Heap.size_push] at henv
    exact hr.unmade symbol (by omega)

/-- A new binding in front of those of a frame. -/
theorem define (hr : Recorded h w) {f : Frame} (hf : w.frames.get? env = some f) (symbol : Name)
    (value : Value)
    (hframes : w'.frames = w.frames.set env { f with bindings := (symbol, value) :: f.bindings }) :
    Recorded (.define env symbol value :: h) w' := by
  let bound (g : Frame) : Frame := { g with bindings := (symbol, value) :: g.bindings }
  have hget (i : FrameRef) : w'.frames.get? i =
      (w.frames.get? i).map fun g => if env = i then bound g else g := by
    rw [hframes, Heap.get?_set_map hf bound]
    split <;> simp
  have hold {i : FrameRef} {g : Frame} (hg : w.frames.get? i = some g) :
      w'.frames.get? i = some (if env = i then bound g else g) := by rw [hget, hg, Option.map_some]
  have hcases {i : FrameRef} {g' : Frame} (hg' : w'.frames.get? i = some g') :
      ∃ g, w.frames.get? i = some g ∧ (if env = i then bound g else g) = g' :=
    Option.map_eq_some_iff.1 (hget i ▸ hg')
  -- The frame that has changed has its parent and its registry still.
  have hparent (i : FrameRef) (g : Frame) : (if env = i then bound g else g).parent = g.parent := by
    split <;> rfl
  have hregistry (i : FrameRef) (g : Frame) :
      (if env = i then bound g else g).registry = g.registry := by
    split <;> rfl
  have hevent (i : FrameRef) (g : Frame) :
      Event.ofFrame i (if env = i then bound g else g) = .ofFrame i g := by
    rw [Event.ofFrame, Event.ofFrame, hparent, hregistry]
  refine ⟨fun he hne => ?_, fun hg => ?_, fun hg hp => ?_, fun {i g'} s hg => ?_, fun s hi => ?_⟩
  · have hmem := (List.mem_cons.1 he).resolve_left (hne env symbol value)
    obtain ⟨i, g, hg, rfl⟩ := hr.frame hmem hne
    exact ⟨i, _, hold hg, (hevent i g).symm⟩
  · obtain ⟨g, hg₀, rfl⟩ := hcases hg
    rw [hevent]
    exact List.mem_cons_of_mem _ (hr.event hg₀)
  · obtain ⟨g, hg₀, rfl⟩ := hcases hg
    rw [hparent] at hp
    obtain ⟨hlt, g', hg', hsame⟩ := hr.parent hg₀ hp
    exact ⟨hlt, _, hold hg', by rw [hregistry, hregistry, hsame]⟩
  · obtain ⟨g, hg₀, rfl⟩ := hcases hg
    rw [latest, ← hr.bindings s hg₀]
    by_cases hi : env = i
    · rw [if_pos hi]
      by_cases hs : symbol = s
      · simp [bound, hi, hs]
      · have hother : (s == symbol) = false := beq_false_of_ne (Ne.symm hs)
        simp [bound, List.lookup_cons, hs, hother]
    · simp [hi]
  · rw [hframes, Heap.size_set] at hi
    have henv : env ≠ _ := Nat.ne_of_lt (Nat.lt_of_lt_of_le (Heap.lt_size_of_get? hf) hi)
    rw [latest, if_neg (fun hc => henv hc.1)]
    exact hr.unmade s hi

end Recorded

theorem define_eq {f : Frame} (hf : w.frames.get? env = some f) (symbol : Name)
    (value : Value) : Env.define env symbol value w = some (.ok (), { w with
      frames := w.frames.set env { f with bindings := (symbol, value) :: f.bindings } }) := by
  simp only [Env.define, Run.update, hf]

theorem Forest.recorded (hw : Forest h w) : Recorded h w := by
  induction hw with
  | empty hw => exact .empty hw
  | other _ hframes ih => exact ih.of_frames hframes
  | new _ hrun ih =>
    cases hrun
    exact ih.push (f := { registry := _ }) rfl (by simp) rfl
  | withRegistry _ hrun ih =>
    cases hrun
    exact ih.push (f := { registry := _ }) rfl (by simp) rfl
  | @child h w w' env parent _ hparent hrun ih =>
    obtain ⟨g, hg⟩ := ih.made_iff.1 hparent
    cases hrun
    refine ih.push (f := { parent := some parent, registry := w.registryOf parent }) rfl ?_ rfl
    intro _ hsome
    cases hsome
    exact ⟨g, hg, by simp [World.registryOf, hg]⟩
  | @define h w w' env symbol value _ henv hrun ih =>
    obtain ⟨f, hf⟩ := ih.made_iff.1 henv
    rw [define_eq hf] at hrun
    cases hrun
    exact ih.define hf symbol value rfl

/-! ## Chains -/

namespace Recorded

variable (hr : Recorded h w)

include hr

theorem exists_chain (henv : Made h env) : ∃ frames registry, Chain h env frames registry := by
  induction env using Nat.strongRecOn with
  | ind env ih =>
    rcases henv with ⟨registry, he⟩ | ⟨parent, he⟩
    · exact ⟨[env], registry, .root he⟩
    · obtain ⟨f, hf, hparent⟩ := hr.child_iff.1 he
      obtain ⟨hlt, g, hg, -⟩ := hr.parent hf hparent
      obtain ⟨frames, registry, hchain⟩ := ih parent hlt (hr.made_iff.2 ⟨g, hg⟩)
      exact ⟨env :: frames, registry, .child he hchain⟩

theorem chain_unique {frames' : List FrameRef} {registry' : RegistryRef}
    (hc : Chain h env frames registry) (hc' : Chain h env frames' registry') :
    frames' = frames ∧ registry' = registry := by
  induction hc generalizing frames' registry' with
  | root he =>
    obtain ⟨f, hf, hparent, hregistry⟩ := hr.root_iff.1 he
    cases hc' with
    | root he' =>
      obtain ⟨g, hg, -, hregistry'⟩ := hr.root_iff.1 he'
      cases hf.symm.trans hg
      exact ⟨rfl, hregistry'.symm.trans hregistry⟩
    | child he' _ =>
      obtain ⟨g, hg, hparent'⟩ := hr.child_iff.1 he'
      cases hf.symm.trans hg
      cases hparent.symm.trans hparent'
  | child he _ ih =>
    obtain ⟨f, hf, hparent⟩ := hr.child_iff.1 he
    cases hc' with
    | root he' =>
      obtain ⟨g, hg, hparent', -⟩ := hr.root_iff.1 he'
      cases hf.symm.trans hg
      cases hparent.symm.trans hparent'
    | child he' hc' =>
      obtain ⟨g, hg, hparent'⟩ := hr.child_iff.1 he'
      cases hf.symm.trans hg
      cases hparent.symm.trans hparent'
      obtain ⟨rfl, rfl⟩ := ih hc'
      exact ⟨rfl, rfl⟩

theorem chain_length (hc : Chain h env frames registry) : frames.length ≤ env + 1 := by
  induction hc with
  | root _ => simp
  | child he _ ih =>
    obtain ⟨f, hf, hparent⟩ := hr.child_iff.1 he
    exact Nat.succ_le_succ (Nat.le_trans ih (hr.parent hf hparent).1)

theorem chain_length_le_size (hc : Chain h env frames registry) :
    frames.length ≤ w.frames.size := by
  have henv : Made h env := by
    cases hc with
    | root he => exact .inl ⟨_, he⟩
    | child he _ => exact .inr ⟨_, he⟩
  obtain ⟨f, hf⟩ := hr.made_iff.1 henv
  have := hr.chain_length hc
  have := Heap.lt_size_of_get? hf
  omega

theorem registryOf_eq (hc : Chain h env frames registry) : w.registryOf env = registry := by
  induction hc with
  | root he =>
    obtain ⟨f, hf, -, hregistry⟩ := hr.root_iff.1 he
    simp [World.registryOf, hf, hregistry]
  | child he _ ih =>
    obtain ⟨f, hf, hparent⟩ := hr.child_iff.1 he
    obtain ⟨-, g, hg, hregistry⟩ := hr.parent hf hparent
    simpa [World.registryOf, hf, hg, hregistry] using ih

omit hr in
theorem lookupFrom_succ {f : Frame} (hf : w.frames.get? env = some f) (symbol : Name) (n : Nat) :
    w.lookupFrom symbol (n + 1) env =
      (f.bindings.lookup symbol).or (f.parent.bind (w.lookupFrom symbol n)) := by
  simp only [World.lookupFrom, hf]
  cases f.bindings.lookup symbol <;> rfl

/-- A walk that may go as far as the chain finds the nearest binding. -/
theorem lookupFrom_eq (hc : Chain h env frames registry) (symbol : Name) {n : Nat}
    (hn : frames.length ≤ n) :
    w.lookupFrom symbol n env = frames.findSome? fun f => latest f symbol h := by
  induction hc generalizing n with
  | @root env _ he =>
    obtain ⟨f, hf, hparent, -⟩ := hr.root_iff.1 he
    obtain ⟨m, rfl⟩ : ∃ m, n = m + 1 := ⟨n - 1, by simp at hn; omega⟩
    rw [lookupFrom_succ hf, hr.bindings symbol hf, hparent, List.findSome?_cons]
    cases latest env symbol h <;> rfl
  | @child env _ _ _ he _ ih =>
    obtain ⟨f, hf, hparent⟩ := hr.child_iff.1 he
    obtain ⟨m, rfl⟩ : ∃ m, n = m + 1 := ⟨n - 1, by simp at hn; omega⟩
    rw [lookupFrom_succ hf, hr.bindings symbol hf, hparent, List.findSome?_cons, Option.bind_some,
      ih (by simpa using hn)]
    cases latest env symbol h <;> rfl

end Recorded

/-! ## What a symbol stands for -/

theorem varOf_qualified {symbol : Name} {ns : String} (hns : symbol.ns = some ns) :
    w.varOf registry symbol = ownVar w registry ns symbol.name := by
  simp only [World.varOf, hns, ownVar]

theorem varOf_unqualified {symbol : Name} (hns : symbol.ns = none) :
    w.varOf registry symbol = (ownVar w registry (w.currentName registry) symbol.name).or
      (referredVar w registry (w.currentName registry) symbol.name) := by
  simp only [World.varOf, hns, ownVar, referredVar]
  cases w.registered registry (w.currentName registry) with
  | none => rfl
  | some ns =>
    simp only [Option.bind_some, World.visible, World.own]
    cases w.namespace? ns <;> rfl

theorem findSome?_latest_eq_some_iff {symbol : Name} {value : Value} :
    (frames.findSome? fun f => latest f symbol h) = some value ↔
      ∃ f, Reaches h frames f symbol ∧ latest f symbol h = some value := by
  rw [List.findSome?_eq_some_iff]
  constructor
  · rintro ⟨inner, f, outer, hframes, hf, hinner⟩
    exact ⟨f, ⟨inner, outer, hframes, hinner⟩, hf⟩
  · rintro ⟨f, ⟨inner, outer, hframes, hinner⟩, hf⟩
    exact ⟨inner, f, outer, hframes, hf, hinner⟩

namespace Recorded

variable (hr : Recorded h w) (hc : Chain h env frames registry)

include hr hc

theorem lookup_eq (symbol : Name) :
    w.lookup env symbol = frames.findSome? fun f => latest f symbol h :=
  hr.lookupFrom_eq hc symbol (hr.chain_length_le_size hc)

theorem resolve_unqualified {symbol : Name} (hns : symbol.ns = none) :
    w.resolve env symbol = (frames.findSome? fun f => latest f symbol h).or
      (((ownVar w registry (w.currentName registry) symbol.name).or
        (referredVar w registry (w.currentName registry) symbol.name)).bind
          fun v => (w.varCell v.cell).value) := by
  simp only [World.resolve, hns, World.resolveGlobal, hr.lookup_eq hc, hr.registryOf_eq hc,
    varOf_unqualified hns]

theorem resolve_qualified {symbol : Name} {ns : String} (hns : symbol.ns = some ns) :
    w.resolve env symbol =
      (ownVar w registry ns symbol.name).bind fun v => (w.varCell v.cell).value := by
  simp only [World.resolve, hns, World.resolveGlobal, hr.registryOf_eq hc, varOf_qualified hns]

theorem resolve_of_stands {symbol : Name} {answer : Option Value}
    (ha : Stands h w frames registry symbol answer) : w.resolve env symbol = answer := by
  cases ha with
  | bound hns hreach hf =>
    rw [hr.resolve_unqualified hc hns, findSome?_latest_eq_some_iff.2 ⟨_, hreach, hf⟩,
      Option.some_or]
  | own hns hnone hv =>
    rw [hr.resolve_unqualified hc hns, List.findSome?_eq_none_iff.2 hnone, hv]
    rfl
  | referred hns hnone hown hv =>
    rw [hr.resolve_unqualified hc hns, List.findSome?_eq_none_iff.2 hnone, hown, hv]
    rfl
  | unknown hns hnone hown hreferred =>
    rw [hr.resolve_unqualified hc hns, List.findSome?_eq_none_iff.2 hnone, hown, hreferred]
    rfl
  | qualified hns hv =>
    rw [hr.resolve_qualified hc hns, hv]
    rfl
  | unknownQualified hns hnone =>
    rw [hr.resolve_qualified hc hns, hnone]
    rfl

omit hr hc in
/-- Every symbol stands for something, if only for nothing at all. -/
theorem exists_stands (h : List Event) (w : World) (frames : List FrameRef)
    (registry : RegistryRef) (symbol : Name) :
    ∃ answer, Stands h w frames registry symbol answer := by
  cases hns : symbol.ns with
  | some ns =>
    cases hown : ownVar w registry ns symbol.name with
    | some v => exact ⟨_, .qualified hns hown⟩
    | none => exact ⟨_, .unknownQualified hns hown⟩
  | none =>
    cases hfind : frames.findSome? fun f => latest f symbol h with
    | some value =>
      obtain ⟨f, hreach, hf⟩ := findSome?_latest_eq_some_iff.1 hfind
      exact ⟨_, .bound hns hreach hf⟩
    | none =>
      have hnone := List.findSome?_eq_none_iff.1 hfind
      cases hown : ownVar w registry (w.currentName registry) symbol.name with
      | some v => exact ⟨_, .own hns hnone hown⟩
      | none =>
        cases hreferred : referredVar w registry (w.currentName registry) symbol.name with
        | some v => exact ⟨_, .referred hns hnone hown hreferred⟩
        | none => exact ⟨_, .unknown hns hnone hown hreferred⟩

theorem stands_iff {symbol : Name} {answer : Option Value} :
    Stands h w frames registry symbol answer ↔ answer = w.resolve env symbol := by
  refine ⟨fun ha => (hr.resolve_of_stands hc ha).symm, ?_⟩
  rintro rfl
  obtain ⟨answer, ha⟩ := exists_stands h w frames registry symbol
  rwa [hr.resolve_of_stands hc ha]

end Recorded

/-! ## What a definition changes -/

theorem Chain.cons (e : Event) (hc : Chain h env frames registry) :
    Chain (e :: h) env frames registry := by
  induction hc with
  | root he => exact .root (List.mem_cons_of_mem e he)
  | child he _ ih => exact .child (List.mem_cons_of_mem e he) ih

theorem reaches_cons {f g : FrameRef} {symbol : Name} :
    Reaches h (g :: frames) f symbol ↔
      g = f ∨ latest g symbol h = none ∧ Reaches h frames f symbol := by
  constructor
  · rintro ⟨inner, outer, hframes, hinner⟩
    cases inner with
    | nil => exact .inl (List.cons.inj hframes).1
    | cons a inner =>
      obtain ⟨rfl, htail⟩ := List.cons.inj hframes
      exact .inr ⟨hinner _ List.mem_cons_self,
        inner, outer, htail, fun f hf => hinner f (List.mem_cons_of_mem _ hf)⟩
  · rintro (rfl | ⟨hg, inner, outer, rfl, hinner⟩)
    · exact ⟨[], frames, rfl, by simp⟩
    · exact ⟨g :: inner, outer, rfl, by simpa [hg] using hinner⟩

section Latest

variable {f : FrameRef} {t symbol : Name} (value : Value)

/-- The new binding is found from every chain that reaches its frame. -/
theorem findSome?_latest_define (hreach : Reaches h frames f symbol) :
    (frames.findSome? fun g => latest g symbol (.define f symbol value :: h)) = some value := by
  induction frames with
  | nil =>
    obtain ⟨inner, outer, hframes, -⟩ := hreach
    simp at hframes
  | cons g frames ih =>
    rw [List.findSome?_cons, latest]
    rcases reaches_cons.1 hreach with rfl | ⟨hg, hreach⟩
    · simp
    · by_cases hfg : f = g
      · simp [hfg]
      · simpa [hfg, hg] using ih hreach

/-- No other chain finds anything new. -/
theorem findSome?_latest_define_of_not (hnot : ¬(symbol = t ∧ Reaches h frames f t)) :
    (frames.findSome? fun g => latest g symbol (.define f t value :: h)) =
      frames.findSome? fun g => latest g symbol h := by
  by_cases hsymbol : symbol = t
  · subst hsymbol
    replace hnot : ¬Reaches h frames f symbol := fun hreach => hnot ⟨rfl, hreach⟩
    induction frames with
    | nil => rfl
    | cons g frames ih =>
      rw [reaches_cons, not_or, not_and] at hnot
      obtain ⟨hgf, htail⟩ := hnot
      rw [List.findSome?_cons, List.findSome?_cons, latest, if_neg (fun hc => hgf hc.1.symm)]
      cases hg : latest g symbol h with
      | some value => rfl
      | none => exact ih (htail hg)
  · have hother (g : FrameRef) : latest g symbol (.define f t value :: h) = latest g symbol h :=
      if_neg fun hc => hsymbol hc.2.symm
    simp only [hother]

end Latest

namespace Recorded

variable {f : FrameRef} {t symbol : Name} {value : Value} (hr : Recorded h w)
  (hr' : Recorded (.define f t value :: h) w') (hc : Chain h env frames registry)
  (hframes : ∃ fs, w' = { w with frames := fs })

include hr' hc

theorem resolve_define_of_reaches (ht : t.ns = none) (hreach : Reaches h frames f t) :
    w'.resolve env t = some value := by
  rw [hr'.resolve_unqualified (hc.cons _) ht, findSome?_latest_define value hreach, Option.some_or]

include hr hframes

theorem resolve_define_of_not (hnot : ¬(symbol = t ∧ t.ns = none ∧ Reaches h frames f t)) :
    w'.resolve env symbol = w.resolve env symbol := by
  have hc' := hc.cons (.define f t value)
  -- Vars, namespaces and registries are the same in both worlds.
  obtain ⟨fs, rfl⟩ := hframes
  cases hns : symbol.ns with
  | some ns =>
    rw [hr'.resolve_qualified hc' hns, hr.resolve_qualified hc hns]
    rfl
  | none =>
    have hmiss : ¬(symbol = t ∧ Reaches h frames f t) := fun ⟨hsymbol, hreach⟩ =>
      hnot ⟨hsymbol, hsymbol ▸ hns, hreach⟩
    rw [hr'.resolve_unqualified hc' hns, hr.resolve_unqualified hc hns,
      findSome?_latest_define_of_not value hmiss]
    rfl

end Recorded

/-- In every forest of frames an environment has one chain, which ends, and a symbol resolves to
just what it stands for along that chain. A definition changes what the symbol resolves to only
where the chain reaches the frame of the definition, and there to the new value. -/
theorem resolution_and_shadowing (hw : Forest h w) (henv : Made h env) (symbol : Name) :
    ∃ frames registry, (∀ fs r, Chain h env fs r ↔ fs = frames ∧ r = registry) ∧
      frames.length ≤ w.frames.size ∧
      (∀ n, frames.length ≤ n →
        w.lookupFrom symbol n env = frames.findSome? fun f => latest f symbol h) ∧
      ∃ answer w', Env.resolve env symbol w = some (.ok answer, w') ∧
        (∀ a, Stands h w frames registry symbol a ↔ a = answer) ∧
        ∀ f t value, Made h f → ∃ w₁ answer₁ w₂,
          Env.define f t value w = some (.ok (), w₁) ∧
          Env.resolve env symbol w₁ = some (.ok answer₁, w₂) ∧
          (symbol = t ∧ t.ns = none ∧ Reaches h frames f t → answer₁ = some value) ∧
          (¬(symbol = t ∧ t.ns = none ∧ Reaches h frames f t) → answer₁ = answer) := by
  have hr := hw.recorded
  obtain ⟨frames, registry, hc⟩ := hr.exists_chain henv
  refine ⟨frames, registry, fun fs r => ⟨hr.chain_unique hc, ?_⟩, hr.chain_length_le_size hc,
    fun n => hr.lookupFrom_eq hc symbol, _, _, resolve_eq env symbol w,
    fun a => hr.stands_iff hc, ?_⟩
  · rintro ⟨rfl, rfl⟩
    exact hc
  · intro f t value hf
    obtain ⟨g, hg⟩ := hr.made_iff.1 hf
    have hr' := (hw.define hf (define_eq hg t value)).recorded
    refine ⟨_, _, _, define_eq hg t value, resolve_eq env symbol _, ?_, ?_⟩
    · rintro ⟨rfl, ht, hreach⟩
      exact hr'.resolve_define_of_reaches hc ht hreach
    · exact hr.resolve_define_of_not hr' hc ⟨_, rfl⟩

/-- The binding of the inner frame hides that of the root, and the root binding the symbol anew
changes nothing for the inner frame. -/
theorem resolution_and_shadowing_hidden :
    let h : List Event := [.define 1 ⟨none, "x"⟩ (.int 2), .define 0 ⟨none, "x"⟩ (.int 1),
      .child 1 0, .root 0 0]
    ∃ w, Forest h w ∧ Made h 1 ∧
      (∃ w', Env.resolve 1 ⟨none, "x"⟩ w = some (.ok (some (.int 2)), w')) ∧
      ∃ w₁ w₂, Env.define 0 ⟨none, "x"⟩ (.int 3) w = some (.ok (), w₁) ∧
        Env.resolve 1 ⟨none, "x"⟩ w₁ = some (.ok (some (.int 2)), w₂) := by
  intro h
  have hframes : Forest [.child 1 0, .root 0 0] _ :=
    .child (.new (.empty (w := {}) rfl) rfl) (.inl ⟨0, by simp⟩) rfl
  have hw : Forest h _ :=
    .define (.define hframes (.inl ⟨0, by simp⟩) rfl) (.inr ⟨0, by simp⟩) rfl
  have hinner : Made h 1 := .inr ⟨0, by simp [h]⟩
  obtain ⟨frames, registry, hchain, -, -, answer, w', hresolve, hstands, hdefine⟩ :=
    resolution_and_shadowing hw hinner ⟨none, "x"⟩
  obtain ⟨rfl, rfl⟩ := (hchain [1, 0] 0).1 (.child (by simp [h]) (.root (by simp [h])))
  obtain rfl := (hstands (some (.int 2))).1 (.bound rfl ⟨[], [0], rfl, by simp⟩ rfl)
  obtain ⟨w₁, answer₁, w₂, hrun, hafter, -, hsame⟩ :=
    hdefine 0 ⟨none, "x"⟩ (.int 3) (.inl ⟨0, by simp [h]⟩)
  obtain rfl := hsame (by simp [reaches_cons, h, latest])
  exact ⟨_, hw, hinner, ⟨w', hresolve⟩, w₁, w₂, hrun, hafter⟩

end LispKernel.Env
