import LispKernel.Proofs.Namespace.Resolution
import LispKernel.Proofs.Refinement.Machine

/-!
# Environments that agree

The machine adds frames and never touches those there are: a native procedure binds names in a frame
of its own. So what a frame has for a symbol stays the same in the course of an evaluation, and an
evaluation depends on its frame only through the registry and the bindings of the symbols that the
expression mentions.
-/
namespace LispKernel

open Run (RefinesIn)

namespace World

/-- Every frame was made after its parent. -/
def Chained (w : World) : Prop :=
  ∀ (i : Nat) (f : Frame) (p : Nat), w.frames.get? i = some f → f.parent = some p → p < i

/-- The frames of the first world are in the second as they were. -/
def FramesKept (w w' : World) : Prop :=
  ∀ i f, w.frames.get? i = some f → w'.frames.get? i = some f

/-- Both frames are there, with the same registry, and have the same for every unqualified symbol
that the expression mentions. -/
structure Agree (w : World) (x : Expr) (e₁ e₂ : FrameRef) : Prop where
  registry : ∃ f₁ f₂, w.frames.get? e₁ = some f₁ ∧ w.frames.get? e₂ = some f₂ ∧
    f₁.registry = f₂.registry
  lookup : ∀ name, x.Mentions name → name.ns = none → w.lookup e₁ name = w.lookup e₂ name

variable {w u : World}

theorem framesKept_invariant (w : World) : Invariant (FramesKept w) where
  storage _ hu := hu
  routine {u v} hu hv := by
    cases hv with
    | frame frame =>
      intro i f hi
      have hlt := Heap.lt_size_of_get? (hu i f hi)
      rw [Heap.get?_push, if_neg (Nat.ne_of_lt hlt)]
      exact hu i f hi
    | _ => exact hu
  start _ hu := hu
  fill _ _ hu := hu

/-- A chain of frames is followed to its root in as many steps as the frame has predecessors. -/
theorem Chained.lookupFrom_eq (hw : w.Chained) (hu : w.FramesKept u) (symbol : Name) {n m : Nat}
    {e : Nat} {f : Frame} (he : w.frames.get? e = some f) (hn : e < n) (hm : e < m) :
    u.lookupFrom symbol m e = w.lookupFrom symbol n e := by
  induction n generalizing m e f with
  | zero => omega
  | succ n ih =>
    obtain ⟨m, rfl⟩ : ∃ k, m = k + 1 := ⟨m - 1, by omega⟩
    simp only [lookupFrom, hu e f he, he]
    cases f.bindings.lookup symbol with
    | some value => rfl
    | none =>
      cases hparent : f.parent with
      | none => rfl
      | some p =>
        have hp := hw e f p he hparent
        have hsize := Heap.lt_size_of_get? he
        cases hg : w.frames.get? p with
        | none =>
          have := Heap.get?_eq_none_iff.1 hg
          omega
        | some g => exact ih hg (by omega) (by omega)

theorem Chained.lookup_eq (hw : w.Chained) (hu : w.FramesKept u) (symbol : Name) {e : FrameRef}
    {f : Frame} (he : w.frames.get? e = some f) : u.lookup e symbol = w.lookup e symbol :=
  hw.lookupFrom_eq hu symbol he (Heap.lt_size_of_get? he) (Heap.lt_size_of_get? (hu e f he))

/-- A frame has what its parent has for a symbol that it does not bind itself. -/
theorem Chained.lookup_parent (hw : w.Chained) {symbol : Name} {c e : Nat} {g f : Frame}
    (hc : w.frames.get? c = some g) (he : w.frames.get? e = some f) (hparent : g.parent = some e)
    (hnone : g.bindings.lookup symbol = none) : w.lookup c symbol = w.lookup e symbol := by
  have hlt := hw c g e hc hparent
  have hsize := Heap.lt_size_of_get? hc
  unfold lookup
  obtain ⟨m, hm⟩ : ∃ m, w.frames.size = m + 1 := ⟨w.frames.size - 1, by omega⟩
  calc w.lookupFrom symbol w.frames.size c
      = w.lookupFrom symbol m e := by
        simp only [hm, lookupFrom, hc, hnone, hparent, Option.bind_some]
    _ = w.lookupFrom symbol w.frames.size e :=
      hw.lookupFrom_eq (fun _ _ h => h) symbol he (by omega) (by omega)

theorem Agree.symm {x : Expr} {e₁ e₂ : FrameRef} (h : w.Agree x e₁ e₂) : w.Agree x e₂ e₁ where
  registry := by
    obtain ⟨f₁, f₂, h₁, h₂, hregistry⟩ := h.registry
    exact ⟨f₂, f₁, h₂, h₁, hregistry.symm⟩
  lookup name hname hns := (h.lookup name hname hns).symm

theorem Agree.child {x y : Expr} {e₁ e₂ : FrameRef} (hy : y ∈ x.children) (h : w.Agree x e₁ e₂) :
    w.Agree y e₁ e₂ where
  registry := h.registry
  lookup name hname := h.lookup name (hname.child hy)

/-- A child that binds none of the symbols that an expression mentions agrees with its parent. -/
theorem Chained.agree_parent (hw : w.Chained) {x : Expr} {c e : Nat} {g f : Frame}
    (hc : w.frames.get? c = some g) (he : w.frames.get? e = some f) (hparent : g.parent = some e)
    (hregistry : g.registry = f.registry) (hbindings : ∀ b ∈ g.bindings, ¬ x.Mentions b.1) :
    w.Agree x c e where
  registry := ⟨g, f, hc, he, hregistry⟩
  lookup name hname _ := by
    apply hw.lookup_parent hc he hparent
    rw [List.lookup_eq_none_iff]
    intro b hb
    have hne : name ≠ b.1 := fun h => hbindings b hb (h ▸ hname)
    simp [hne]

end World

open World (FramesKept)

variable {w : World} {x : Expr} {e₁ e₂ : FrameRef}

/-- Frames that agree resolve a symbol alike, and they still do so later. -/
theorem Env.resolve_agree (hw : w.Chained) (h : w.Agree x e₁ e₂) {name : Name}
    (hname : x.Mentions name) :
    RefinesIn (FramesKept w) (resolve e₁ name) (resolve e₂ name) := by
  intro u r u' hu hrun
  obtain ⟨f₁, f₂, h₁, h₂, hregistry⟩ := h.registry
  have hregistry : u.registryOf e₁ = u.registryOf e₂ := by
    simp only [World.registryOf, hu e₁ f₁ h₁, hu e₂ f₂ h₂, Option.map_some, hregistry]
  have hsame : resolve e₁ name u = resolve e₂ name u := by
    rw [resolve_eq, resolve_eq]
    unfold World.resolve World.consulted World.resolveGlobal
    rw [hregistry]
    cases hns : name.ns with
    | some ns => rfl
    | none =>
      rw [hw.lookup_eq hu name h₁, hw.lookup_eq hu name h₂, h.lookup name hname hns]
  have hQ := (World.framesKept_invariant w).machineCongruence
  exact ⟨hsame ▸ hrun, (resolve_congr hQ e₁ name u r u' hu hrun).2⟩

namespace Machine

/-- Evaluations in frames that agree keep pace, by induction on the fuel. -/
theorem eval_agree (hw : w.Chained) (h : w.Agree x e₁ e₂) (n : Nat) :
    RefinesIn (FramesKept w) (eval n x e₁) (eval n x e₂) := by
  have hQ := (World.framesKept_invariant w).machineCongruence
  have hnested {y z : Run Value} (hyz : RefinesIn (FramesKept w) y z) :
      RefinesIn (FramesKept w) y.nested z.nested :=
    hyz.nested (fun _ hu _ => hu) fun _ hu => hu
  induction n generalizing x with
  | zero =>
    rw [eval]
    exact hQ.exhausted _
  | succ n ih =>
    have hn := Nat.le_refl n
    obtain ⟨-, hcall, hforce⟩ := congr hQ hnested hn
    rw [eval, eval]
    apply hQ.mapError
    apply hnested
    apply Expr.evalWith_congr hQ hcall (Value.equals_congr hQ.congruence hforce hn)
      (Value.display_congr hQ.congruence hforce hn false)
    · intro y hy
      exact ih (h.child hy)
    · rintro name p rfl
      exact Env.resolve_agree hw h ⟨1, p, .root _⟩

/-- Coincidence: from a world in which two frames agree on an expression, evaluating it in the one
and in the other gives the same outcome and leaves the same world. So it makes no difference to
evaluate in a child that binds only symbols which the expression does not mention. -/
theorem eval_coincides (hw : w.Chained) (n : Nat) (x : Expr) :
    (∀ e₁ e₂, w.Agree x e₁ e₂ → eval n x e₁ w = eval n x e₂ w) ∧
    ∀ c e g f, w.frames.get? c = some g → w.frames.get? e = some f → g.parent = some e →
      g.registry = f.registry → (∀ b ∈ g.bindings, ¬ x.Mentions b.1) →
      eval n x c w = eval n x e w := by
  have hagree (e₁ e₂ : FrameRef) (h : w.Agree x e₁ e₂) : eval n x e₁ w = eval n x e₂ w :=
    (eval_agree hw h n).antisymm (eval_agree hw h.symm n) fun _ _ hi => hi
  refine ⟨hagree, fun c e g f hc he hparent hregistry hbindings => ?_⟩
  exact hagree c e (hw.agree_parent hc he hparent hregistry hbindings)

/-- A native procedure that evaluates in the child itself, called from a root, from the child, and
from another root with other bindings. -/
theorem eval_coincides_native :
    let a : Name := ⟨none, "a"⟩
    let b : Name := ⟨none, "b"⟩
    let x : Expr := .call (.literal (.proc ⟨"get", 0⟩) ⟨1, 2⟩) [.symbol a ⟨1, 6⟩] ⟨1, 1⟩
    let get : Native := fun args => .request (.eval (.symbol b ⟨2, 1⟩) 1 (args.map (a, ·)))
    let w : World := { natives := ⟨#[get]⟩,
                       frames := ⟨#[⟨[(a, .int 1)], none, 0⟩, ⟨[(b, .int 2)], some 0, 0⟩,
                         ⟨[(b, .int 3), (a, .int 1)], none, 0⟩]⟩ }
    (w.Chained ∧ w.Agree x 0 2 ∧ ¬ x.Mentions b) ∧
      eval 4 x 0 w = eval 4 x 2 w ∧ eval 4 x 1 w = eval 4 x 0 w ∧ (eval 4 x 1 w).isSome := by
  intro a b x get w
  have hmentions (name : Name) (h : x.Mentions name) : name = a := by
    simp only [Expr.Mentions, x] at h
    obtain ⟨l, p, hnode⟩ := h
    cases hnode with
    | child hy hnode =>
      simp only [Expr.children, List.mem_cons, List.not_mem_nil, or_false] at hy
      rcases hy with rfl | rfl
      · cases hnode with
        | child hz _ => cases hz
      · cases hnode with
        | root => rfl
        | child hz _ => cases hz
  have hb : ¬ x.Mentions b := fun h => absurd (hmentions b h) (by decide)
  have hchained : w.Chained := by
    intro i f p hi hp
    rcases i with _ | _ | _ | i
    · cases hi; cases hp
    · cases hi; cases hp; decide
    · cases hi; cases hp
    · simp [w, Heap.get?] at hi
  have hagree : w.Agree x 0 2 :=
    ⟨⟨_, _, rfl, rfl, rfl⟩, fun name hname _ => by rw [hmentions name hname]; rfl⟩
  obtain ⟨hcoincides, hchild⟩ := eval_coincides hchained 4 x
  refine ⟨⟨hchained, hagree, hb⟩, hcoincides 0 2 hagree, ?_, by decide +kernel⟩
  exact hchild 1 0 _ _ rfl rfl rfl rfl (List.forall_mem_singleton.2 hb)

end Machine

end LispKernel
