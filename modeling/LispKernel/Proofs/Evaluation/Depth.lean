import LispKernel.Native.Library
import LispKernel.Proofs.Refinement.Machine

/-!
# The depth of evaluation

Every evaluation gives back the level of depth that it takes, however it ends. While native
procedures, the evaluations they begin and the producers of lazy cells work on each other's behalf,
the depth stays the depth at the start and one level for each evaluation under way.

To speak of the calls that are made in the course of an evaluation, the machine is run with a watch
on its native procedures. The watched machine hands down how many evaluations are under way, which
the machine itself does not know.
-/
namespace LispKernel

open Run (RefinesIn)

/-! ## Levels -/

/-- The world at a given depth, which is within the limit. -/
structure World.Level (limit depth : Nat) (w : World) : Prop where
  depth_eq : w.depth = depth
  limit_eq : w.maxDepth = limit
  bounded : depth ≤ limit

namespace World.Level

variable {limit depth : Nat} {w w' : World}

theorem of_eq (h : w.Level limit depth) (hdepth : w'.depth = w.depth)
    (hlimit : w'.maxDepth = w.maxDepth) : w'.Level limit depth :=
  ⟨hdepth.trans h.depth_eq, hlimit.trans h.limit_eq, h.bounded⟩

theorem routine (h : w.Level limit depth) (hw : Routine w w') : w'.Level limit depth := by
  cases hw <;> exact h.of_eq rfl rfl

/-- One level down, where the limit allows it. -/
theorem enter (h : w.Level limit depth) (hdepth : ¬ w.maxDepth < w.depth + 1) :
    w.below.Level limit (depth + 1) := by
  rw [h.depth_eq, h.limit_eq] at hdepth
  exact ⟨by rw [World.below, h.depth_eq], h.limit_eq, by omega⟩

/-- Back up from the level below. -/
theorem leave (h : w.Level limit (depth + 1)) : w.above.Level limit depth := by
  have hbounded := h.bounded
  exact ⟨by rw [World.above, h.depth_eq, Nat.add_sub_cancel], h.limit_eq, by omega⟩

end World.Level

variable {limit depth : Nat}

theorem level_congruence (limit depth : Nat) :
    MachineCongruence fun _ => RefinesIn (World.Level limit depth) :=
  Invariant.machineCongruence {
    storage := fun _ hw => hw.of_eq rfl rfl
    routine := World.Level.routine
    start := fun _ hw => hw.of_eq rfl rfl
    fill := fun _ _ hw => hw.of_eq rfl rfl }

/-- A nested evaluation takes a level and gives it back. -/
theorem Run.nested_level {α : Type} {x y : Run α}
    (h : RefinesIn (World.Level limit (depth + 1)) x y) :
    RefinesIn (World.Level limit depth) x.nested y.nested :=
  h.nested (fun _ hw => hw.enter) fun _ hw => hw.leave

/-! ## Watching native procedures -/

namespace Machine

/-- What is done in place of the run of a native procedure, told how many evaluations are under
way, which procedure is called and with which arguments. -/
abbrev Watch := Nat → Proc → List Value → Run Value → Run Value

mutual

/-- The evaluation of an expression while `k` others are under way. -/
def evalWatched (watch : Watch) : Nat → Nat → Expr → FrameRef → Run Value
  | 0, _, _, _ => .exhausted
  | n + 1, k, x, env =>
    (x.evalWith (fun y => evalWatched watch n (k + 1) y env) (callWatched watch n (k + 1))
      (Value.equals (forceWatched watch n (k + 1)) n)
      (Value.display (forceWatched watch n (k + 1)) false n) env).nested.mapError
        (.located x.position)
termination_by structural n => n

def callWatched (watch : Watch) : Nat → Nat → Value → List Value → Run Value
  | 0, _, _, _ => .exhausted
  | n + 1, k, f, args =>
    match f with
    | .proc p => watch k p args do
      match ← Run.gets fun w => w.natives.get? p.code with
      | some code => (code args).run (Request.answer (evalWatched watch n k)
          (callWatched watch n k) (forceWatched watch n k) n)
      | none => .fail (.notCallable (toString p))
    | .map m => m.call (Value.equals (forceWatched watch n k) n) args
    | .vector v => v.call args
    | .set s => s.call (Value.equals (forceWatched watch n k) n) args
    | f => do .fail (.notCallable (← f.display (forceWatched watch n k) false n))
termination_by structural n => n

def forceWatched (watch : Watch) : Nat → Nat → LazyRef → Run Seq
  | 0, _, _ => .exhausted
  | n + 1, k, cell => LazyCell.realize (callWatched watch n k) cell
termination_by structural n => n

end

/-- The watch that lets every call pass. -/
def Watch.idle : Watch := fun _ _ _ run => run

/-- Without interference the watched machine is the machine. -/
theorem watched_idle (n : Nat) : ∀ k,
    evalWatched .idle n k = eval n ∧ callWatched .idle n k = call n ∧
      forceWatched .idle n k = force n := by
  induction n with
  | zero =>
    intro k
    refine ⟨?_, ?_, ?_⟩
    · funext x env
      rw [evalWatched, eval]
    · funext f args
      rw [callWatched, call]
    · funext cell
      rw [forceWatched, force]
  | succ n ih =>
    intro k
    obtain ⟨heval, hcall, hforce⟩ := ih k
    obtain ⟨heval', hcall', hforce'⟩ := ih (k + 1)
    refine ⟨?_, ?_, ?_⟩
    · funext x env
      rw [evalWatched, eval, heval', hcall', hforce']
    · funext f args
      cases f with
      | atom a =>
        cases a with
        | proc p =>
          rw [callWatched, call, heval, hcall, hforce]
          rfl
        | _ => simp only [callWatched, call, hforce]
      | _ => simp only [callWatched, call, hforce]
    · funext cell
      rw [forceWatched, force, hcall]

/-- The watch does not interfere with calls of which the condition holds. -/
def Watch.Allows (watch : Watch) (P : Nat → World → Prop) : Prop :=
  ∀ k p args run v, P k v → watch k p args run v = run v

/-- The condition holds of every call of a native procedure in the course of an evaluation, that is
of the number of evaluations under way and of the world at the call: no watch that lets such calls
pass is ever noticed. -/
def EveryCall (P : Nat → World → Prop) (n : Nat) (x : Expr) (env : FrameRef) (w : World) : Prop :=
  ∀ watch : Watch, watch.Allows P → evalWatched watch n 0 x env w = eval n x env w

/-- Two watches that let calls at the depth of the evaluations under way pass: the second machine
comes to whatever the first comes to, and every level that is taken is given back. -/
theorem watched_level {watch watch' : Watch} {limit base : Nat}
    (hwatch : watch.Allows fun k v => v.Level limit (base + k))
    (hwatch' : watch'.Allows fun k v => v.Level limit (base + k)) (n : Nat) : ∀ k,
    (∀ x env, RefinesIn (World.Level limit (base + k)) (evalWatched watch n k x env)
      (evalWatched watch' n k x env)) ∧
    (∀ f args, RefinesIn (World.Level limit (base + k)) (callWatched watch n k f args)
      (callWatched watch' n k f args)) ∧
    ∀ cell, RefinesIn (World.Level limit (base + k)) (forceWatched watch n k cell)
      (forceWatched watch' n k cell) := by
  induction n with
  | zero =>
    intro k
    have hQ := level_congruence limit (base + k)
    refine ⟨fun x env => ?_, fun f args => ?_, fun cell => ?_⟩
    · rw [evalWatched]
      exact hQ.exhausted _
    · rw [callWatched]
      exact hQ.exhausted _
    · rw [forceWatched]
      exact hQ.exhausted _
  | succ n ih =>
    intro k
    refine ⟨fun x env => ?_, fun f args => ?_, fun cell => ?_⟩
    · -- the parts are evaluated one level further down, with one more evaluation under way
      obtain ⟨heval, hcall, hforce⟩ := ih (k + 1)
      have hQ := level_congruence limit (base + (k + 1))
      rw [evalWatched, evalWatched]
      apply (level_congruence limit (base + k)).mapError
      apply Run.nested_level
      exact Expr.evalWith_congr hQ hcall
        (Value.equals_congr hQ.congruence hforce (Nat.le_refl n))
        (Value.display_congr hQ.congruence hforce (Nat.le_refl n) false)
        (fun y _ => heval y env) fun name _ _ => Env.resolve_congr hQ env name
    · obtain ⟨heval, hcall, hforce⟩ := ih k
      have hQ := level_congruence limit (base + k)
      have heq := Value.equals_congr hQ.congruence hforce (Nat.le_refl n)
      have hdisplay := Value.display_congr hQ.congruence hforce (Nat.le_refl n) false
      cases f with
      | map m => exact Dict.call_congr hQ.congruence heq m args
      | vector v => exact Vec.call_congr hQ.congruence v args
      | set s => exact ElemSet.call_congr hQ.congruence heq s args
      | seq s => exact hQ.bind (hdisplay _) fun _ => hQ.fail _
      | atom a =>
        cases a with
        | proc p =>
          intro w r w' hw h
          simp only [callWatched, hwatch k _ _ _ w hw, hwatch' k _ _ _ w hw] at h ⊢
          refine hQ.bind (hQ.gets _) (fun code => ?_) w r w' hw h
          cases code with
          | some code =>
            have hanswer := Request.answer_congr hQ heval hcall hforce (Nat.le_refl n)
            exact Action.run_congr hQ hanswer (code args)
          | none => exact hQ.fail _
        | _ => exact hQ.bind (hdisplay _) fun _ => hQ.fail _
    · obtain ⟨-, hcall, -⟩ := ih k
      rw [forceWatched, forceWatched]
      exact (level_congruence limit (base + k)).realize hcall cell

theorem eval_level {limit base n : Nat} (x : Expr) (env : FrameRef) :
    RefinesIn (World.Level limit base) (eval n x env) (eval n x env) := by
  have hidle : Watch.idle.Allows fun k v => v.Level limit (base + k) := fun _ _ _ _ _ _ => rfl
  have h := (watched_level hidle hidle n 0).1 x env
  rwa [(watched_idle n 0).1] at h

/-- Of calls at the depth of the evaluations under way no watch is noticed, since the machine and
the watched machine refine each other. -/
theorem everyCall_level {limit base n : Nat} {x : Expr} {env : FrameRef} {w : World}
    (hw : w.Level limit base) : EveryCall (fun k v => v.Level limit (base + k)) n x env w := by
  intro watch hwatch
  have hidle : Watch.idle.Allows fun k v => v.Level limit (base + k) := fun _ _ _ _ _ _ => rfl
  have hforth := (watched_level hwatch hidle n 0).1 x env
  have hback := (watched_level hidle hwatch n 0).1 x env
  rw [(watched_idle n 0).1] at hforth hback
  exact hforth.antisymm hback hw

theorem EveryCall.mono {P P' : Nat → World → Prop} {n : Nat} {x : Expr} {env : FrameRef}
    {w : World} (h : EveryCall P n x env w) (hP : ∀ k v, P k v → P' k v) :
    EveryCall P' n x env w :=
  fun watch hwatch => h watch fun k p args run v hv => hwatch k p args run v (hP k v hv)

/-- The depth is balanced and bounded: however an evaluation that starts within the limit ends, the
depth is what it was; and every native procedure that is called on the way sees the depth of the
start and one level for each evaluation under way, which is within the limit. -/
theorem eval_depth_balanced {n : Nat} {x : Expr} {env : FrameRef} {w : World}
    (hdepth : w.depth ≤ w.maxDepth) :
    (∀ r w', eval n x env w = some (r, w') → w'.depth = w.depth ∧ w'.maxDepth = w.maxDepth) ∧
    EveryCall (fun k v => v.depth = w.depth + k ∧ v.depth ≤ w.maxDepth) n x env w := by
  have hw : w.Level w.maxDepth w.depth := ⟨rfl, rfl, hdepth⟩
  refine ⟨fun r w' hr => ?_, ?_⟩
  · obtain ⟨-, hw'⟩ := eval_level x env w r w' hw hr
    exact ⟨hw'.depth_eq, hw'.limit_eq⟩
  · refine (everyCall_level hw).mono fun k v hv => ⟨hv.depth_eq, ?_⟩
    rw [hv.depth_eq]
    exact hv.bounded

/-- A set whose second element is compared with a lazy sequence: realizing it evaluates an
expression, and the native procedure called there runs with three evaluations under way. -/
theorem eval_depth_balanced_reentrant :
    let pos : Position := ⟨1, 1⟩
    let inner : Expr := .vector [.call (.literal (.proc ⟨"depth", 1⟩) pos) [] pos] pos
    let x : Expr := .set [.literal (.seq (.lazy 0 .plain)) pos, .vector [] pos] pos
    let w : World := { lazies := ⟨#[.pending (.proc ⟨"produce", 0⟩) []]⟩,
                       natives := ⟨#[.evaluating inner 0, .depth]⟩,
                       frames := ⟨#[⟨[], none, 0⟩]⟩, depth := 2, maxDepth := 6 }
    w.depth ≤ w.maxDepth ∧ (∃ r w', eval 9 x 0 w = some (r, w') ∧ w'.depth = 2) ∧
      EveryCall (fun k v => v.depth = 2 + k ∧ v.depth ≤ 6) 9 x 0 w ∧
      ¬ EveryCall (fun k _ => k ≠ 3) 9 x 0 w := by
  intro pos inner x w
  have hdepth : w.depth ≤ w.maxDepth := by decide
  have hends : (eval 9 x 0 w).isSome := by decide +kernel
  obtain ⟨⟨r, w'⟩, hrun⟩ := Option.isSome_iff_exists.1 hends
  obtain ⟨hbalanced, hcalls⟩ := @eval_depth_balanced 9 x 0 w hdepth
  refine ⟨hdepth, ⟨r, w', hrun, (hbalanced _ _ hrun).1⟩, hcalls, fun hnone => ?_⟩
  -- a watch that stops the call with three evaluations under way is noticed
  let watch : Watch := fun k _ _ run v => if k = 3 then none else run v
  have hstopped : (evalWatched watch 9 0 x 0 w).isSome = false := by decide +kernel
  rw [hnone watch fun k p args run v hk => if_neg hk, hends] at hstopped
  cases hstopped

end Machine

end LispKernel
