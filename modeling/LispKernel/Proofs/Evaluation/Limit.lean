import LispKernel.Proofs.Mirror.Machine

/-!
# The depth limit

Without procedures and lazy cells the limit on the depth only cuts evaluation off. An expression
whose tree fits below the limit is never too deep. An evaluation that is not cut off comes to the
same under a higher limit, as one follows the other in the world with the limit raised.
-/
namespace LispKernel

/-- Whatever its position, the error is that evaluation was too deep. -/
def Error.IsDepthExceeded (e : Error) : Prop := ∃ limit, e.kind = .depthExceeded limit

theorem Error.kind_located (e : Error) (p : Position) : (e.located p).kind = e.kind := by
  cases e <;> rfl

/-- The world with another limit. -/
def World.limited (limit : Nat) (w : World) : World := { w with maxDepth := limit }

theorem World.consulted_limited (limit : Nat) (w : World) (env : FrameRef) (symbol : Name) :
    (w.limited limit).consulted env symbol = (w.consulted env symbol).limited limit := by
  have henter (r : RegistryRef) (name : String) :
      (w.limited limit).enter r name = (w.enter r name).limited limit := by
    unfold enter updateRegistry registry?
    cases h : w.registries.get? r <;> simp [limited, h]
  have hcurrent (r : RegistryRef) :
      (w.limited limit).withCurrent r = (w.withCurrent r).limited limit := by
    unfold withCurrent
    rw [apply_ite (World.limited limit), ← henter]
    rfl
  have hframes : (w.limited limit).frames = w.frames := rfl
  unfold consulted
  rw [lookup_eq_of_frames hframes]
  split
  · exact hcurrent _
  · rfl

/-- Inert worlds with the limit raised to a given one. -/
def Mirror.raised (limit : Nat) : Mirror where
  Holds w := w.Inert ∧ w.maxDepth ≤ limit
  image := World.limited limit
  number := id
  injective := Function.injective_id
  storages _ := rfl
  store hw := ⟨⟨⟨hw.1.frames, hw.1.vars⟩, hw.2⟩, rfl⟩
  printLength _ := rfl

namespace Mirror

theorem raised_nests (limit : Nat) : (raised limit).Nests Error.IsDepthExceeded where
  enter {w} hw hdepth := by
    refine ⟨⟨⟨hw.1.frames, hw.1.vars⟩, hw.2⟩, rfl, ?_⟩
    have hlimit := hw.2
    simp only [raised, World.limited]
    omega
  leave hw := ⟨⟨⟨hw.1.frames, hw.1.vars⟩, hw.2⟩, rfl⟩
  stop {w} _ _ := .inl ⟨w.maxDepth, rfl⟩
  located p he := by
    obtain ⟨limit, he⟩ := he
    exact ⟨limit, by rw [Error.kind_located, he]⟩

theorem raised_fits (limit : Nat) (env : FrameRef) {x : Expr} (hx : x.Inert) :
    (raised limit).Fits env x := by
  apply Fits.of_same hx
  · exact fun l v p _ => v.rename_id
  · exact fun w hw => ⟨hw.1, rfl, rfl, rfl, rfl⟩
  · exact fun w v _ _ => v.rename_id
  · intro w symbol hw
    have hlimit : (w.consulted env symbol).maxDepth = w.maxDepth := by
      obtain ⟨_, _, hconsulted⟩ := w.consulted_eq env symbol
      rw [hconsulted]
    refine ⟨⟨hw.1.consulted env symbol, ?_⟩, World.consulted_limited limit w env symbol⟩
    rw [hlimit]
    exact hw.2
  · exact fun w cell c hw _ hc _ => ⟨rfl, ⟨hw.1.setVar cell hc, hw.2⟩, rfl⟩

end Mirror

/-- A node raises this kind of error only where it is one level too deep. -/
theorem Expr.Raises.level_of_isDepthExceeded {limit nesting : Nat} {x : Expr} {p : Position}
    {e : Error} (h : Raises limit nesting x p e) (he : e.IsDepthExceeded) :
    nesting = limit + 1 := by
  obtain ⟨k, hk⟩ := he
  cases h with
  | deep _ hnesting => exact hnesting
  | call callee args p hcall =>
    cases e <;> first | exact hcall.elim | cases hk
  | _ => cases hk

namespace Machine

variable {n : Nat} {x : Expr} {env : FrameRef} {w : World}

/-- A tree that fits below the limit is not too deep: no level of it is one too many. -/
theorem eval_not_isDepthExceeded (hx : x.Inert) (hw : w.Inert)
    (hfits : w.depth + x.height ≤ w.maxDepth) {e : Error} {w' : World}
    (h : eval n x env w = some (.error e, w')) : ¬ e.IsDepthExceeded := by
  have hcalm : w.Calm w.maxDepth w.depth := ⟨hw, rfl, rfl, by omega⟩
  obtain ⟨-, p, k, rfl, -, l, node, hnode, hraises⟩ := eval_endsIn n hx env w.depth w _ w' hcalm h
  have hlevel := hnode.level_le_height
  intro hdeep
  have hnesting := hraises.level_of_isDepthExceeded hdeep
  omega

/-- The limit only cuts off. If the tree fits below it, evaluation is not too deep; and if
evaluation ends otherwise than by being too deep, it ends with the same value or error under every
higher limit, and in the same world but for the limit. -/
theorem eval_limit_cuts_off (hx : x.Inert) (hw : w.Inert) :
    (w.depth + x.height ≤ w.maxDepth →
      ∀ e w', eval n x env w = some (.error e, w') → ¬ e.IsDepthExceeded) ∧
    ∀ limit r w', w.maxDepth ≤ limit → eval n x env w = some (r, w') →
      (∀ e, r = .error e → ¬ e.IsDepthExceeded) →
      eval n x env { w with maxDepth := limit } = some (r, { w' with maxDepth := limit }) := by
  refine ⟨fun hfits e w' => eval_not_isDepthExceeded hx hw hfits, ?_⟩
  intro limit r w' hlimit hrun hr
  have hfollows := eval_follows (Mirror.raised_nests limit) (Mirror.raised_fits limit env hx) n
  have hout := hfollows w r w' ⟨hw, hlimit⟩ hrun
  cases r with
  | ok v =>
    obtain ⟨-, -, hraised⟩ := hout
    rw [show Value.rename (Mirror.raised limit).number v = v from v.rename_id] at hraised
    exact hraised
  | error e =>
    rcases hout with hdeep | ⟨-, hraised⟩
    · exact absurd hdeep (hr e rfl)
    · exact hraised

/-- A tree that is too high for the limit, but not in the branch that is taken. -/
theorem eval_limit_cuts_off_branch :
    let p : Position := ⟨1, 1⟩
    let v : Var := ⟨some "user", ⟨none, "a"⟩, 0⟩
    let high : Expr := .vector [.vector [] p] p
    let x : Expr := .block [.define v (some (.literal (.int 1) p)) none p,
      .branch (.literal .nil p) high none p] p
    let w : World := { vars := ⟨#[{}]⟩, maxDepth := 3 }
    let w' : World := { vars := ⟨#[{ value := some (.int 1) }]⟩, maxDepth := 3 }
    (x.Inert ∧ w.Inert ∧ x.height = 4 ∧ eval 3 x 0 w = some (.ok .nil, w')) ∧
      eval 3 x 0 { w with maxDepth := 9 } = some (.ok .nil, { w' with maxDepth := 9 }) ∧
      ∀ n e u, eval n x 0 { w with maxDepth := 4 } = some (.error e, u) → ¬ e.IsDepthExceeded := by
  intro p v high x w w'
  have hx : x.Inert := by
    have hliteral {a : Atom} (h : (Value.atom a).isProc = false) :
        (Expr.literal (.atom a) p).Inert :=
      Expr.inert_literal.2 (Value.inert_atom h)
    have hdefine : (Expr.define v (some (.literal (.int 1) p)) none p).Inert :=
      .of_children (by simp) (by simpa [Expr.children] using hliteral rfl)
    have hhigh : high.Inert := by
      have hempty : (Expr.vector [] p).Inert := .of_children (by simp) (by simp [Expr.children])
      exact .of_children (by simp [high]) (by simpa [Expr.children, high] using hempty)
    have hbranch : (Expr.branch (.literal .nil p) high none p).Inert :=
      .of_children (by simp) (by simpa [Expr.children] using ⟨hliteral rfl, hhigh⟩)
    exact .of_children (by simp [x]) (by simpa [Expr.children, x] using ⟨hdefine, hbranch⟩)
  have hw (limit : Nat) : World.Inert { w with maxDepth := limit } := by
    refine ⟨by simp [w, Heap.get?], fun {i cell} hi a ha => ?_⟩
    cases i with
    | zero =>
      cases hi
      cases ha
    | succ i => simp [w, Heap.get?] at hi
  have hheight : x.height = 4 := by
    have hliteral (a : Value) : (Expr.literal a p).height = 1 := Expr.height_eq _
    have hempty : (Expr.vector [] p).height = 1 := Expr.height_eq _
    have hhigh : high.height = 2 := by
      rw [Expr.height_eq]
      simp [high, Expr.children, hempty]
    rw [Expr.height_eq]
    simp only [x, Expr.children, List.map_cons, List.map_nil, List.foldr_cons, List.foldr_nil]
    rw [Expr.height_eq (.define _ _ _ _), Expr.height_eq (.branch _ _ _ _)]
    simp [Expr.children, hliteral, hhigh]
  have hrun : eval 3 x 0 w = some (.ok .nil, w') := by cbv
  refine ⟨⟨hx, hw 3, hheight, hrun⟩, ?_, fun n e u => ?_⟩
  · exact (eval_limit_cuts_off hx (hw 3)).2 9 _ _ (by decide) hrun (by simp)
  · exact (eval_limit_cuts_off hx (hw 4)).1 (by simp [w, hheight]) e u

end Machine

end LispKernel
