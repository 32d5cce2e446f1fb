import LispKernel.Machine
import LispKernel.Proofs.Expr.Nodes
import LispKernel.Proofs.Outcome
import LispKernel.Proofs.Refinement.Walk
import LispKernel.Proofs.Value.Parts

/-!
# Refinement of the machine

All that evaluating, calling and realizing can do to the world is a chain of a few kinds of steps.
A relation between runs that respects these steps relates the machine at work to itself with related
parts. A relation between worlds that allows them holds between the worlds before and after every
run of the machine, and more fuel never changes an outcome.
-/
namespace LispKernel

open Run (Refines RefinesIn ReturnsIn)

/-- What a relation must allow for everything that the machine does. A frame is made with all its
bindings and not touched again. A cell is filled only after it has made its call, and never
twice. -/
structure Steps (R : World → World → Prop) : Prop extends change : Change R where
  frame (w : World) (frame : Frame) : R w { w with frames := w.frames.push frame }
  vars (w : World) (vars : Heap VarCell) : R w { w with vars }
  namespaces (w : World) (namespaces : Heap Namespace) : R w { w with namespaces }
  registries (w : World) (registries : Heap Registry) : R w { w with registries }
  counters (w : World) (counters : Heap Nat) : R w { w with counters }
  log (w : World) (log : List String) : R w { w with log }
  suspend (w : World) (callee : Value) (args : List Value) :
    R w { w with lazies := w.lazies.push (.pending callee args) }
  start {w : World} {cell : LazyRef} {callee : Value} {args : List Value} :
    w.lazies.get? cell = some (.pending callee args) →
    R w { w with productions := cell :: w.productions }
  fill {w v : World} {cell : LazyRef} {callee : Value} {args : List Value} (s : Seq) :
    w.lazies.get? cell = some (.pending callee args) →
    R { w with productions := cell :: w.productions } v →
    (∀ t, v.lazies.get? cell ≠ some (.realized t)) →
    R w { v with lazies := v.lazies.set cell (.realized s) }
  nested {w v : World} : R w.below v → R w v.above

theorem Steps.any : Steps (fun _ _ => True) where
  refl _ := trivial
  trans _ _ := trivial
  storage _ := trivial
  frame _ _ := trivial
  vars _ _ := trivial
  namespaces _ _ := trivial
  registries _ _ := trivial
  counters _ _ := trivial
  log _ _ := trivial
  suspend _ _ _ := trivial
  start _ := trivial
  fill _ _ _ _ := trivial
  nested _ := trivial

/-- What the machine does to the world other than to realize a cell or to take a level of depth. -/
inductive Routine (w : World) : World → Prop where
  | nothing : Routine w w
  | frame (frame : Frame) : Routine w { w with frames := w.frames.push frame }
  | vars (vars : Heap VarCell) : Routine w { w with vars }
  | namespaces (namespaces : Heap Namespace) : Routine w { w with namespaces }
  | registries (registries : Heap Registry) : Routine w { w with registries }
  | counters (counters : Heap Nat) : Routine w { w with counters }
  | log (log : List String) : Routine w { w with log }
  | suspend (callee : Value) (args : List Value) :
      Routine w { w with lazies := w.lazies.push (.pending callee args) }

/-- An invariant that is kept by everything that the machine does at one level of depth. -/
structure Invariant (I : World → Prop) : Prop where
  storage : Elastic I
  routine {w w' : World} : I w → Routine w w' → I w'
  start {w : World} (cell : LazyRef) : I w → I { w with productions := cell :: w.productions }
  fill {w : World} (cell : LazyRef) (s : Seq) :
    I w → I { w with lazies := w.lazies.set cell (.realized s) }

/-- A congruence that also respects the steps of the machine at one level of depth. -/
structure MachineCongruence (Q : (α : Type) → Run α → Run α → Prop) : Prop
    extends congruence : Congruence Q where
  routine {α : Type} {f : World → α} {g : World → World} : (∀ w, Routine w (g w)) →
    Q α (fun w => some (.ok (f w), g w)) (fun w => some (.ok (f w), g w))
  realize {call call' : Value → List Value → Run Value} :
    (∀ f args, Q Value (call f args) (call' f args)) →
    ∀ cell, Q Seq (LazyCell.realize call cell) (LazyCell.realize call' cell)

variable {R : World → World → Prop}

theorem Steps.routine (hR : Steps R) {w w' : World} (h : Routine w w') : R w w' := by
  cases h with
  | nothing => exact hR.refl w
  | frame frame => exact hR.frame w frame
  | vars vars => exact hR.vars w vars
  | namespaces namespaces => exact hR.namespaces w namespaces
  | registries registries => exact hR.registries w registries
  | counters counters => exact hR.counters w counters
  | log log => exact hR.log w log
  | suspend callee args => exact hR.suspend w callee args

/-! ## Levels of depth -/

namespace Run

variable {α : Type} {x y : Run α} {w w' v : World} {r : Except Error α}

/-- A level beyond the limit is taken and given back, which leaves the world as it was. -/
theorem nested_of_limit (x : Run α) (h : w.maxDepth < w.depth + 1) :
    x.nested w = some (.error (.depthExceeded w.maxDepth), w) := if_pos h

theorem nested_of_some (h : ¬w.maxDepth < w.depth + 1) (hx : x w.below = some (r, v)) :
    x.nested w = some (r, v.above) := by
  have hlevel : ¬w.maxDepth < w.below.depth := h
  rw [nested, if_neg hlevel, hx]

/-- All that a nested evaluation can do. -/
theorem nested_cases (h : x.nested w = some (r, w')) :
    (w.maxDepth < w.depth + 1 ∧ r = .error (.depthExceeded w.maxDepth) ∧ w' = w) ∨
      ¬w.maxDepth < w.depth + 1 ∧ ∃ v, x w.below = some (r, v) ∧ w' = v.above := by
  by_cases hdepth : w.maxDepth < w.depth + 1
  · cases (nested_of_limit x hdepth).symm.trans h
    exact .inl ⟨hdepth, rfl, rfl⟩
  · cases hx : x w.below with
    | none =>
      have hnone : x.nested w = none := (if_neg hdepth).trans (by rw [hx])
      cases hnone.symm.trans h
    | some out =>
      cases (nested_of_some hdepth hx).symm.trans h
      exact .inr ⟨hdepth, out.2, rfl, rfl⟩

theorem Refines.nested (hR : Steps R) (h : Refines R x y) : Refines R x.nested y.nested := by
  intro w r w' hx
  rcases nested_cases hx with ⟨hdepth, rfl, rfl⟩ | ⟨hdepth, v, hv, rfl⟩
  · exact ⟨nested_of_limit y hdepth, hR.refl _⟩
  · obtain ⟨hy, hchange⟩ := h _ _ _ hv
    exact ⟨nested_of_some hdepth hy, hR.nested hchange⟩

/-- A nested evaluation in the worlds of an invariant, with another one for the level below. -/
theorem RefinesIn.nested {I J : World → Prop}
    (henter : ∀ w, I w → ¬w.maxDepth < w.depth + 1 → J w.below)
    (hleave : ∀ w, J w → I w.above) (h : RefinesIn J x y) : RefinesIn I x.nested y.nested := by
  intro w r w' hw hx
  rcases nested_cases hx with ⟨hdepth, rfl, rfl⟩ | ⟨hdepth, v, hv, rfl⟩
  · exact ⟨nested_of_limit y hdepth, hw⟩
  · obtain ⟨hy, hv'⟩ := h _ _ _ (henter w hw hdepth) hv
    exact ⟨nested_of_some hdepth hy, hleave v hv'⟩

end Run

theorem Value.withMeta_congr {Q : (α : Type) → Run α → Run α → Prop} (hQ : Congruence Q)
    {eq eq' : Comparison} (heq : ∀ a b, Q Bool (eq a b) (eq' a b)) (v : Value) (metadata : Dict) :
    Q Value (v.withMeta eq metadata) (v.withMeta eq' metadata) := by
  unfold withMeta
  split
  · apply hQ.bind
    · exact hQ.bind (Dict.mergeOption_congr hQ heq _ _) fun _ => hQ.pure _
    · exact fun _ => hQ.pure _
  · exact hQ.fail _

/-! ## Views of values -/

theorem Seq.ofArray_returns_view {I : World → Prop} (hI : Elastic I) (items : List Value) :
    (ofArray items).ReturnsIn I fun s => ∃ k, s = .view .array k ⟨items.toArray, 0⟩ .plain :=
  (ReturnsIn.freshStorage hI).bind fun k _ => .pure ⟨k, rfl⟩

namespace Value

/-- The elements of a value in order, with the characters of a string in the given storage. -/
def view? (storage : Storage) : Value → Option Seq
  | nil => some (.empty .plain)
  | string "" => some (.empty .plain)
  | string s => some (.view .array storage ⟨(s.toList.map char).toArray, 0⟩ .plain)
  | vector v => some v.seq
  | map m => some m.seq
  | set s => some s.seq
  | seq s => some s
  | _ => none

theorem seq?_returns_view {I : World → Prop} (hI : Elastic I) (v : Value) :
    v.seq?.ReturnsIn I fun o => ∃ k, o = v.view? k := by
  unfold seq?
  split
  case h_3 s hs =>
    refine (Seq.ofArray_returns_view hI _).bind fun t ⟨k, ht⟩ => .pure ⟨k, ?_⟩
    rw [ht]
    unfold view?
    split <;> simp_all
  case h_8 =>
    refine .pure ⟨0, ?_⟩
    unfold view?
    split <;> simp_all
  all_goals exact .pure ⟨0, rfl⟩

/-- Views of a value differ at most in the storage for the characters of a string. -/
theorem view?_cases {v : Value} {k : Storage} {s : Seq} (h : v.view? k = some s) (l : Storage) :
    v.view? l = some s ∨ ∃ slice, s = .view .array k slice .plain ∧
      v.view? l = some (.view .array l slice .plain) := by
  unfold view? at h ⊢
  split at h
  case h_3 =>
    cases h
    exact .inr ⟨_, rfl, rfl⟩
  all_goals exact .inl h

end Value

/-! ## Lazy cells -/

namespace LazyCell

variable {call call' : Value → List Value → Run Value} {cell : LazyRef} {w w' : World}
  {r : Except Error Seq}

theorem realize_realized {s : Seq} (h : w.lazies.get? cell = some (.realized s)) :
    realize call cell w = some (.ok s, w) := by
  rw [realize, Run.gets_bind, h]
  rfl

theorem realize_none (h : w.lazies.get? cell = none) :
    realize call cell w = some (.ok (.empty .plain), w) := by
  rw [realize, Run.gets_bind, h]
  rfl

theorem realize_pending {callee : Value} {args : List Value}
    (h : w.lazies.get? cell = some (.pending callee args)) :
    realize call cell w =
      (call callee args >>= keep cell) { w with productions := cell :: w.productions } := by
  rw [realize, Run.gets_bind, h]
  rfl

/-- Keeping a result takes storage at most, and then either nothing is left to do or the cell is
filled for the first time. -/
theorem keep_cases (hR : Change R) {value : Value} (h : keep cell value w = some (r, w')) :
    ∃ v, R w v ∧ ((w' = v ∧ ∀ s, r = .ok s → v.lazies.get? cell = some (.realized s)) ∨
      ∃ s, r = .ok s ∧ (∀ t, v.lazies.get? cell ≠ some (.realized t)) ∧
        w' = { v with lazies := v.lazies.set cell (.realized s) }) := by
  obtain ⟨found, _, hseq, ⟨k, rfl⟩, -⟩ :=
    Value.seq?_returns_view (World.Storing.elastic w) value w (.refl w)
  have hstored : R w { w with storages := k } :=
    (Value.seq?_congr (Refines.congruence hR) value _ _ _ hseq).2
  refine ⟨{ w with storages := k }, hstored, ?_⟩
  rw [keep, Run.bind_of_ok hseq] at h
  cases found with
  | none =>
    cases h
    exact .inl ⟨rfl, fun s hs => nomatch hs⟩
  | some s =>
    simp only [realized?, Run.gets_bind] at h
    rcases hcell : w.lazies.get? cell with _ | ⟨callee, args⟩ | t <;> simp only [hcell] at h <;>
      cases h
    · exact .inr ⟨s, rfl, by simp, rfl⟩
    · exact .inr ⟨s, rfl, by simp, rfl⟩
    · exact .inl ⟨rfl, fun s hs => by cases hs; rfl⟩

theorem realize_refines (hR : Steps R) (hcall : ∀ f args, Refines R (call f args) (call' f args))
    (cell : LazyRef) : Refines R (realize call cell) (realize call' cell) := by
  intro w r w' h
  rcases hcell : w.lazies.get? cell with _ | ⟨callee, args⟩ | s
  · rw [realize_none hcell] at h ⊢
    cases h
    exact ⟨rfl, hR.refl w⟩
  · rw [realize_pending hcell] at h ⊢
    cases r with
    | error e =>
      rcases Run.bind_eq_error.1 h with hfail | ⟨value, v, hvalue, hkeep⟩
      · obtain ⟨hfail', hv⟩ := hcall _ _ _ _ _ hfail
        exact ⟨Run.bind_eq_error.2 (.inl hfail'), hR.trans (hR.start hcell) hv⟩
      · obtain ⟨hvalue', hv⟩ := hcall _ _ _ _ _ hvalue
        refine ⟨Run.bind_eq_error.2 (.inr ⟨value, v, hvalue', hkeep⟩), ?_⟩
        obtain ⟨u, hu, ⟨rfl, -⟩ | ⟨s, hs, -⟩⟩ := keep_cases hR.change hkeep
        · exact hR.trans (hR.start hcell) (hR.trans hv hu)
        · cases hs
    | ok s =>
      obtain ⟨value, v, hvalue, hkeep⟩ := Run.bind_eq_ok.1 h
      obtain ⟨hvalue', hv⟩ := hcall _ _ _ _ _ hvalue
      refine ⟨Run.bind_eq_ok.2 ⟨value, v, hvalue', hkeep⟩, ?_⟩
      obtain ⟨u, hu, ⟨rfl, -⟩ | ⟨s, -, hfresh, rfl⟩⟩ := keep_cases hR.change hkeep
      · exact hR.trans (hR.start hcell) (hR.trans hv hu)
      · exact hR.fill s hcell (hR.trans hv hu) hfresh
  · rw [realize_realized hcell] at h ⊢
    cases h
    exact ⟨rfl, hR.refl w⟩

theorem realize_refinesIn {I : World → Prop} (hI : Invariant I)
    (hcall : ∀ f args, RefinesIn I (call f args) (call' f args)) (cell : LazyRef) :
    RefinesIn I (realize call cell) (realize call' cell) := by
  have hQ := RefinesIn.congruence hI.storage
  have hkeep (value : Value) : RefinesIn I (keep cell value) (keep cell value) := by
    apply hQ.bind (Value.seq?_congr hQ value)
    rintro (_ | s)
    · exact hQ.fail _
    · apply hQ.bind (hQ.gets _)
      rintro (_ | existing)
      · exact hQ.bind (.change fun w => hI.fill cell s) fun _ => hQ.pure _
      · exact hQ.pure _
  apply hQ.bind (hQ.gets _)
  rintro (_ | ⟨callee, args⟩ | s)
  · exact hQ.pure _
  · have hstart : RefinesIn I (start cell) (start cell) := .change fun w => hI.start cell
    exact hQ.bind hstart fun _ => hQ.bind (hcall callee args) hkeep
  · exact hQ.pure _

end LazyCell

theorem Invariant.machineCongruence {I : World → Prop} (hI : Invariant I) :
    MachineCongruence fun _ => RefinesIn I where
  congruence := RefinesIn.congruence hI.storage
  routine hg := .change fun w hw => hI.routine hw (hg w)
  realize := LazyCell.realize_refinesIn hI

theorem Steps.machineCongruence (hR : Steps R) : MachineCongruence fun _ => Refines R where
  congruence := Refines.congruence hR.change
  routine hg := .change fun w => hR.routine (hg w)
  realize := LazyCell.realize_refines hR

section Congruence

variable {Q : (α : Type) → Run α → Run α → Prop} (hQ : MachineCongruence Q)

include hQ

/-! ## Vars, namespaces and frames -/

theorem Var.bind_congr (v : Var) (value : Value) : Q _ (v.bind value) (v.bind value) :=
  hQ.routine fun _ => .vars _

theorem Var.setMetadata_congr (v : Var) (metadata : Option Dict) :
    Q _ (v.setMetadata metadata) (v.setMetadata metadata) :=
  hQ.routine fun _ => .vars _

theorem Var.deref_congr (v : Var) : Q _ v.deref v.deref := by
  refine hQ.bind (hQ.gets _) fun value => ?_
  cases value with
  | some value => exact hQ.pure _
  | none => exact hQ.fail _

theorem Registry.ensure_congr (r : RegistryRef) (name : String) :
    Q _ (ensure r name) (ensure r name) := by
  refine hQ.bind (hQ.gets _) fun ns => ?_
  cases ns with
  | some ns => exact hQ.pure _
  | none =>
    refine hQ.bind (hQ.routine fun _ => .namespaces _) fun ns => ?_
    refine hQ.bind (hQ.routine fun w => ?_) fun _ => hQ.pure _
    unfold World.updateRegistry
    split
    · exact .registries _
    · exact .nothing

theorem Registry.resolve_congr (r : RegistryRef) (symbol : Name) :
    Q _ (resolve r symbol) (resolve r symbol) := by
  unfold resolve
  split
  · refine hQ.bind (hQ.gets _) fun ns => ?_
    cases ns with
    | some ns => exact hQ.gets _
    | none => exact hQ.pure _
  · refine hQ.bind ?_ fun ns => hQ.gets _
    exact hQ.bind (hQ.gets _) fun name => ensure_congr hQ r name

namespace Env

theorem resolve_congr (env : FrameRef) (symbol : Name) :
    Q _ (resolve env symbol) (resolve env symbol) := by
  have hglobal : Q _ (resolveGlobal env symbol) (resolveGlobal env symbol) := by
    refine hQ.bind ?_ fun v => ?_
    · exact hQ.bind (hQ.gets _) fun r => Registry.resolve_congr hQ r symbol
    · cases v with
      | some v => exact hQ.gets _
      | none => exact hQ.pure _
  unfold resolve
  split
  · exact hglobal
  · refine hQ.bind (hQ.gets _) fun value => ?_
    cases value with
    | some value => exact hQ.pure _
    | none => exact hglobal

omit hQ in
theorem defineAll_push (locals : List (Name × Value)) (w : World) (frame : Frame) :
    defineAll w.frames.size locals { w with frames := w.frames.push frame } =
      some (.ok (), { w with
        frames := w.frames.push { frame with bindings := locals.reverse ++ frame.bindings } }) := by
  induction locals generalizing frame with
  | nil => rfl
  | cons entry locals ih =>
    have hdefine : define w.frames.size entry.1 entry.2 { w with frames := w.frames.push frame } =
        some (.ok (), { w with
          frames := w.frames.push { frame with bindings := entry :: frame.bindings } }) := by
      simp [define, Run.update, Heap.get?_push, Heap.set_push]
    rw [defineAll, Run.bind_of_ok hdefine, ih]
    simp

omit hQ in
/-- A child in which names are bound at once is one new frame. -/
theorem child_defineAll (env : FrameRef) (locals : List (Name × Value)) (w : World) :
    (do let child ← child env; defineAll child locals; return child) w =
      some (.ok w.frames.size, { w with frames := w.frames.push ⟨locals.reverse, some env,
        ((w.frames.get? env).map Frame.registry).getD 0⟩ }) := by
  have hchild : child env w = some (.ok w.frames.size, { w with
      frames := w.frames.push
        ⟨[], some env, ((w.frames.get? env).map Frame.registry).getD 0⟩ }) := rfl
  rw [Run.bind_of_ok hchild, Run.bind_of_ok (defineAll_push locals w _)]
  simp [pure, Run.pure]

theorem child_defineAll_congr (env : FrameRef) (locals : List (Name × Value)) :
    Q _ (do let child ← child env; defineAll child locals; return child)
      (do let child ← child env; defineAll child locals; return child) := by
  rw [show (do let child ← child env; defineAll child locals; return child : Run FrameRef) = _
    from funext (child_defineAll env locals)]
  exact hQ.routine fun w => .frame _

end Env

/-! ## Evaluation -/

section Evaluation

variable {eval eval' : Expr → Run Value}
  {call call' : Value → List Value → Run Value}
  (hcall : ∀ f args, Q _ (call f args) (call' f args))
  {eq eq' : Comparison} (heq : ∀ a b, Q _ (eq a b) (eq' a b))
  {display display' : Value → Run String} (hdisplay : ∀ v, Q _ (display v) (display' v))

namespace Expr

theorem evalMetadata_congr (context : String) {x : Expr} (heval : Q _ (eval x) (eval' x)) :
    Q _ (evalWith.evalMetadata eval context x) (evalWith.evalMetadata eval' context x) := by
  refine hQ.bind heval fun v => ?_
  split
  · exact hQ.pure _
  · exact hQ.fail _

include heq hdisplay

theorem addEntries_congr (m : Dict) {entries : List (Expr × Expr)}
    (heval : ∀ e ∈ entries, Q _ (eval e.1) (eval' e.1) ∧ Q _ (eval e.2) (eval' e.2)) :
    Q _ (evalWith.addEntries eval eq display m entries)
      (evalWith.addEntries eval' eq' display' m entries) := by
  induction entries generalizing m with
  | nil => exact hQ.pure _
  | cons entry entries ih =>
    obtain ⟨⟨hkey, hvalue⟩, heval⟩ := List.forall_mem_cons.1 heval
    refine hQ.bind hkey fun key => hQ.bind hvalue fun value => ?_
    refine hQ.bind (Dict.add?_congr hQ.congruence heq m key value) fun added => ?_
    cases added with
    | some m => exact ih m heval
    | none => exact hQ.bind (hdisplay key) fun _ => hQ.fail _

theorem addItems_congr (s : ElemSet) {items : List Expr}
    (heval : ∀ x ∈ items, Q _ (eval x) (eval' x)) :
    Q _ (evalWith.addItems eval eq display s items)
      (evalWith.addItems eval' eq' display' s items) := by
  induction items generalizing s with
  | nil => exact hQ.pure _
  | cons x items ih =>
    obtain ⟨hx, heval⟩ := List.forall_mem_cons.1 heval
    refine hQ.bind hx fun value => ?_
    refine hQ.bind (ElemSet.add?_congr hQ.congruence heq s value) fun added => ?_
    cases added with
    | some s => exact ih s heval
    | none => exact hQ.bind (hdisplay value) fun _ => hQ.fail _

include hcall

/-- Two evaluations of an expression are related if those of its children are and, should it be a
symbol, the two ways to resolve it. -/
theorem evalWith_congr {x : Expr} (heval : ∀ y ∈ x.children, Q _ (eval y) (eval' y))
    {env env' : FrameRef}
    (hresolve : ∀ name p, x = symbol name p → Q _ (Env.resolve env name) (Env.resolve env' name)) :
    Q _ (x.evalWith eval call eq display env) (x.evalWith eval' call' eq' display' env') := by
  cases x with
  | literal value pos => exact hQ.pure _
  | ref v pos => exact Var.deref_congr hQ v
  | symbol name pos =>
    refine hQ.bind (hresolve name pos rfl) fun value => ?_
    cases value with
    | some value => exact hQ.pure _
    | none => exact hQ.fail _
  | vector items pos =>
    refine hQ.bind (hQ.mapM heval) fun values => ?_
    exact hQ.bind (Vec.ofList_congr hQ.congruence values) fun _ => hQ.pure _
  | map entries pos =>
    refine hQ.bind (Dict.new_congr hQ.congruence) fun m => ?_
    exact hQ.bind (addEntries_congr hQ heq hdisplay m (forall_entries heval)) fun _ =>
      hQ.pure _
  | set items pos =>
    refine hQ.bind (ElemSet.new_congr hQ.congruence) fun s => ?_
    exact hQ.bind (addItems_congr hQ heq hdisplay s heval) fun _ =>
      hQ.pure _
  | define v value metadata pos =>
    have hannotate {y : Expr} (hy : metadata = some y) :=
      hQ.bind (evalMetadata_congr hQ "def" (heval y (by simp [children, hy])))
        fun m => hQ.bind (Var.setMetadata_congr hQ v (some m)) fun _ =>
          hQ.pure (Value.var v)
    cases value with
    | none =>
      cases metadata with
      | none => exact hQ.pure _
      | some y => exact hannotate rfl
    | some x =>
      refine hQ.bind (heval x (by simp [children])) fun bound => ?_
      refine hQ.bind (Var.bind_congr hQ v bound) fun _ => ?_
      cases metadata with
      | none => exact hQ.pure _
      | some y => exact hannotate rfl
  | annotate metadata body pos =>
    have hmetadata := evalMetadata_congr hQ "with-meta" (heval metadata (by simp [children]))
    refine hQ.bind hmetadata fun m => hQ.bind (heval body (by simp [children])) fun v => ?_
    exact Value.withMeta_congr hQ.congruence heq v m
  | call callee args pos =>
    refine hQ.bind (heval callee (by simp [children])) fun target => ?_
    split
    · have hargs := hQ.mapM fun y (hy : y ∈ args) => heval y (by simp [children, hy])
      exact hQ.bind hargs fun values => hcall target values
    · exact hQ.bind (hdisplay target) fun _ => hQ.fail _
  | block body pos => exact hQ.foldlM (fun _ x hx => heval x hx) .nil
  | branch condition positive negative pos =>
    refine hQ.bind (heval condition (by simp [children])) fun value => ?_
    split
    · exact heval positive (by simp [children])
    · cases negative with
      | some x => exact heval x (by simp [children])
      | none => exact hQ.pure _

end Expr

end Evaluation

/-! ## Native procedures -/

theorem Action.run_congr {answer answer' : Request → Run Value}
    (h : ∀ q, Q _ (answer q) (answer' q)) (action : Action Value) :
    Q _ (action.run answer) (action.run answer') := by
  induction action with
  | done r => exact hQ.ofExcept r
  | ask q next ih => exact hQ.bind (hQ.attempt (h q)) fun r => ih r

theorem Request.answer_congr {eval eval' : Expr → FrameRef → Run Value}
    (heval : ∀ x env, Q _ (eval x env) (eval' x env))
    {call call' : Value → List Value → Run Value}
    (hcall : ∀ f args, Q _ (call f args) (call' f args)) {force force' : Force}
    (hforce : ∀ cell, Q _ (force cell) (force' cell)) {n m : Nat} (h : n ≤ m)
    (q : Request) : Q _ (q.answer eval call force n) (q.answer eval' call' force' m) := by
  have heq := Value.equals_congr hQ.congruence hforce h
  cases q with
  | eval x frame locals =>
    have hopen := hQ.bind (Env.child_defineAll_congr hQ frame locals) fun child => heval x child
    simp only [bind_assoc, pure_bind] at hopen
    exact hopen
  | call f args => exact hcall f args
  | equals a b => exact hQ.bind (heq a b) fun _ => hQ.pure _
  | render v escape =>
    exact hQ.bind (Value.render_congr hQ.congruence hforce h escape v) fun _ => hQ.pure _
  | first s => exact Seq.first_congr hQ.congruence hforce h s
  | rest s => exact hQ.bind (Seq.rest_congr hQ.congruence hforce h s) fun _ => hQ.pure _
  | nth s index => exact Seq.nth_congr hQ.congruence hforce h s index
  | cons x s =>
    exact hQ.bind (hQ.bind hQ.freshStorage fun _ => hQ.pure _) fun _ => hQ.pure _
  | suspend f args => exact hQ.bind (hQ.routine fun _ => .suspend f args) fun _ => hQ.pure _
  | vector items => exact hQ.bind (Vec.ofList_congr hQ.congruence items) fun _ => hQ.pure _
  | conj m x => exact hQ.bind (Dict.conj_congr hQ.congruence heq m x) fun _ => hQ.pure _
  | depth => exact hQ.bind (hQ.gets _) fun _ => hQ.pure _
  | tick counter => exact hQ.routine fun _ => .counters _
  | log line => exact hQ.bind (hQ.routine fun _ => .log _) fun _ => hQ.pure _

end Congruence

/-! ## The machine -/

namespace Machine

/-- Evaluating, calling and realizing with more fuel, by induction on the fuel for all three. -/
theorem congr {Q : (α : Type) → Run α → Run α → Prop} (hQ : MachineCongruence Q)
    (hnested : ∀ {x y : Run Value}, Q _ x y → Q _ x.nested y.nested) {n m : Nat} (h : n ≤ m) :
    (∀ x env, Q _ (eval n x env) (eval m x env)) ∧
    (∀ f args, Q _ (call n f args) (call m f args)) ∧
    ∀ cell, Q _ (force n cell) (force m cell) := by
  induction n generalizing m with
  | zero =>
    refine ⟨fun x env => ?_, fun f args => ?_, fun cell => ?_⟩
    · rw [eval]
      exact hQ.exhausted _
    · rw [call]
      exact hQ.exhausted _
    · rw [force]
      exact hQ.exhausted _
  | succ n ih =>
    obtain ⟨m, rfl⟩ : ∃ k, m = k + 1 := ⟨m - 1, by omega⟩
    have hm : n ≤ m := by omega
    obtain ⟨heval, hcall, hforce⟩ := ih hm
    have heq := Value.equals_congr hQ.congruence hforce hm
    have hdisplay := Value.display_congr hQ.congruence hforce hm false
    refine ⟨fun x env => ?_, fun f args => ?_, fun cell => ?_⟩
    · rw [eval, eval]
      apply hQ.mapError
      apply hnested
      exact Expr.evalWith_congr hQ hcall heq hdisplay (fun y _ => heval y env)
        fun name _ _ => Env.resolve_congr hQ env name
    · cases f with
      | map m => exact Dict.call_congr hQ.congruence heq m args
      | vector v => exact Vec.call_congr hQ.congruence v args
      | set s => exact ElemSet.call_congr hQ.congruence heq s args
      | seq s => exact hQ.bind (hdisplay _) fun _ => hQ.fail _
      | atom a =>
        cases a with
        | proc p =>
          refine hQ.bind (hQ.gets _) fun code => ?_
          cases code with
          | some code =>
            have hanswer := Request.answer_congr hQ heval hcall hforce hm
            exact Action.run_congr hQ hanswer (code args)
          | none => exact hQ.fail _
        | _ => exact hQ.bind (hdisplay _) fun _ => hQ.fail _
    · rw [force, force]
      exact hQ.realize hcall cell

theorem refines (hR : Steps R) {n m : Nat} (h : n ≤ m) :
    (∀ x env, Refines R (eval n x env) (eval m x env)) ∧
    (∀ f args, Refines R (call n f args) (call m f args)) ∧
    ∀ cell, Refines R (force n cell) (force m cell) :=
  congr hR.machineCongruence (Run.Refines.nested hR) h

end Machine

end LispKernel
