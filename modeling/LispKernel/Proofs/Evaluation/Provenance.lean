import LispKernel.Proofs.Evaluation.Depth
import LispKernel.Proofs.Expr.Nodes
import LispKernel.Proofs.Namespace.Resolution
import LispKernel.Proofs.Value.Inert

/-!
# Where errors come from

Where there is no procedure and no lazy cell, an evaluation that fails does so with an error that
carries one position: that of the node of the tree at fault, or of the callee or the metadata of
that node. What is wrong tells which kind of node it is, and if the tree is too deep, on which level
the node stands.
-/
namespace LispKernel

open Run (EndsIn)
open Value (Inert inert_atom)

/-! ## Errors of a node -/

namespace Expr

/-- All literals in the tree are inert. -/
def Inert (x : Expr) : Prop := ∀ l v p, x.At l (literal v p) → v.Inert

theorem inert_iff {x : Expr} :
    x.Inert ↔ (∀ v p, x = literal v p → v.Inert) ∧ ∀ y ∈ x.children, y.Inert := by
  constructor
  · intro h
    refine ⟨?_, fun y hy l v p hnode => h (l + 1) v p (.child hy hnode)⟩
    rintro v p rfl
    exact h 1 v p (.root _)
  · rintro ⟨hroot, hchildren⟩ l v p hnode
    cases hnode with
    | root => exact hroot v p rfl
    | child hy hnode => exact hchildren _ hy _ v p hnode

theorem inert_literal {v : Value} {p : Position} : (literal v p).Inert ↔ v.Inert := by
  rw [inert_iff]
  simp [children]

theorem Inert.of_children {x : Expr} (hx : ∀ v p, x ≠ literal v p)
    (h : ∀ y ∈ x.children, y.Inert) : x.Inert :=
  inert_iff.2 ⟨fun v p hv => absurd hv (hx v p), h⟩

/-- The errors that a node raises itself, each with the position that goes with it, if the node is
evaluated as the nested evaluation of the given number. -/
inductive Raises (limit nesting : Nat) : Expr → Position → Error → Prop where
  | symbol (name : Name) (p : Position) :
      Raises limit nesting (symbol name p) p (.unresolvedSymbol (toString name))
  | ref (v : Var) (p : Position) : Raises limit nesting (ref v p) p (.unboundVar (toString v))
  | map (entries : List (Expr × Expr)) (p : Position) (key : String) :
      Raises limit nesting (map entries p) p (.duplicateKey key)
  | set (items : List Expr) (p : Position) (element : String) :
      Raises limit nesting (set items p) p (.duplicateElement element)
  | annotate (metadata body : Expr) (p : Position) (type : String) :
      Raises limit nesting (annotate metadata body p) p (.metaUnsupported type)
  | callee (callee : Expr) (args : List Expr) (p : Position) (value : String) :
      Raises limit nesting (call callee args p) callee.position (.notCallable value)
  | defined (v : Var) (value : Option Expr) (metadata : Expr) (p : Position) (got : String) :
      Raises limit nesting (define v value (some metadata) p) metadata.position
        (.typeMismatch "ArrayMap" got (some "def"))
  | annotated (metadata body : Expr) (p : Position) (got : String) :
      Raises limit nesting (annotate metadata body p) metadata.position
        (.typeMismatch "ArrayMap" got (some "with-meta"))
  | call (callee : Expr) (args : List Expr) (p : Position) {e : Error} :
      e.OfCall → Raises limit nesting (call callee args p) p e
  | deep (x : Expr) : nesting = limit + 1 → Raises limit nesting x x.position (.depthExceeded limit)

/-- The error has one position, and a node of the tree raises it there, where the evaluation of the
tree begins at the given depth. -/
def Traced (limit depth : Nat) (x : Expr) (e : Error) : Prop :=
  ∃ p k, e = .positioned p k ∧ k.position? = none ∧
    ∃ l node, x.At l node ∧ Raises limit (depth + l) node p k

variable {limit depth nesting : Nat} {x y : Expr} {p : Position} {e : Error}

theorem Raises.position?_eq_none (h : Raises limit nesting x p e) : e.position? = none := by
  cases h with
  | call callee args p he => cases e <;> first | rfl | exact he.elim
  | _ => rfl

theorem Raises.traced (h : Raises limit (depth + 1) x p e) :
    Traced limit depth x (.positioned p e) :=
  ⟨p, e, rfl, h.position?_eq_none, 1, x, .root x, h⟩

/-- Without a position the error gets that of the node. -/
theorem Raises.traced_located (h : Raises limit (depth + 1) x p e) :
    Traced limit depth x (e.located p) := by
  have hlocated : e.located p = .positioned p e := by
    have hnone := h.position?_eq_none
    cases e <;> first | rfl | cases hnone
  exact hlocated ▸ h.traced

/-- An error that comes from a child keeps its position. -/
theorem Traced.child (hy : y ∈ x.children) (h : Traced limit (depth + 1) y e) (p : Position) :
    Traced limit depth x (e.located p) := by
  obtain ⟨q, k, rfl, hk, l, node, hnode, hraises⟩ := h
  refine ⟨q, k, rfl, hk, l + 1, node, .child hy hnode, ?_⟩
  rwa [Nat.add_right_comm, Nat.add_assoc] at hraises

end Expr

/-! ## Worlds -/

/-- The values in frames and vars are inert. -/
structure World.Inert (w : World) : Prop where
  frames {i : FrameRef} {f : Frame} : w.frames.get? i = some f → ∀ b ∈ f.bindings, b.2.Inert
  vars {i : VarRef} {cell : VarCell} : w.vars.get? i = some cell → ∀ v ∈ cell.value, v.Inert

/-- An inert world at a given depth. -/
structure World.Calm (limit depth : Nat) (w : World) : Prop where
  inert : w.Inert
  level : w.Level limit depth

namespace World

variable {limit depth : Nat} {w : World}

theorem Calm.elastic (limit depth : Nat) : Elastic (Calm limit depth) :=
  fun _ hw => ⟨⟨hw.inert.frames, hw.inert.vars⟩, hw.level.of_eq rfl rfl⟩

theorem Inert.stores (h : w.Inert) {v : Value} (hv : w.Stores v) : v.Inert := by
  cases hv with
  | binding hframe hb => exact h.frames hframe _ hb
  | var hcell hvalue => exact h.vars hcell v hvalue

theorem Inert.varCell (h : w.Inert) (i : VarRef) : ∀ v ∈ (w.varCell i).value, v.Inert :=
  fun _ hv => h.stores (stores_of_varCell hv)

theorem Inert.resolve (h : w.Inert) (env : FrameRef) (symbol : Name) :
    ∀ v ∈ w.resolve env symbol, v.Inert :=
  fun _ hv => h.stores (stores_of_resolve hv)

/-- The current namespace, if it is made, holds no values. -/
theorem Inert.consulted (h : w.Inert) (env : FrameRef) (symbol : Name) :
    (w.consulted env symbol).Inert := by
  obtain ⟨namespaces, registries, hw⟩ := w.consulted_eq env symbol
  rw [hw]
  exact ⟨h.frames, h.vars⟩

/-- A var gets another cell whose value is inert. -/
theorem Inert.setVar (h : w.Inert) (i : VarRef) {cell : VarCell}
    (hcell : ∀ v ∈ cell.value, v.Inert) : Inert { w with vars := w.vars.set i cell } where
  frames := h.frames
  vars {j c} hc := by
    rw [Heap.get?_set] at hc
    split at hc
    · cases hc
      exact hcell
    · exact h.vars hc

theorem Calm.setVar (h : w.Calm limit depth) (i : VarRef) {cell : VarCell}
    (hcell : ∀ v ∈ cell.value, v.Inert) :
    Calm limit depth { w with vars := w.vars.set i cell } where
  inert := h.inert.setVar i hcell
  level := h.level.of_eq rfl rfl

end World

variable {limit depth : Nat} {E : Error → Prop}

open World (Calm)

theorem Var.value?_endsIn (v : Var) :
    v.value?.EndsIn (Calm limit depth) (fun o => ∀ x ∈ o, x.Inert) E :=
  .gets fun _ hw => hw.inert.varCell v.cell

theorem Var.deref_endsIn (v : Var) (hE : E (.unboundVar (toString v))) :
    v.deref.EndsIn (Calm limit depth) Inert E := by
  refine v.value?_endsIn.bind fun o ho => ?_
  cases o with
  | some x => exact .pure (ho x rfl)
  | none => exact .fail hE

theorem Var.bind_endsIn (v : Var) {value : Value} (hvalue : value.Inert) :
    (v.bind value).EndsIn (Calm limit depth) (fun _ => True) E :=
  .change fun _ hw => ⟨hw.setVar v.cell (by simpa using hvalue), trivial⟩

theorem Var.setMetadata_endsIn (v : Var) (metadata : Option Dict) :
    (v.setMetadata metadata).EndsIn (Calm limit depth) (fun _ => True) E :=
  .change fun _ hw => ⟨hw.setVar v.cell (hw.inert.varCell v.cell), trivial⟩

theorem Env.resolve_endsIn (env : FrameRef) (symbol : Name) :
    (resolve env symbol).EndsIn (Calm limit depth) (fun o => ∀ v ∈ o, v.Inert) E := by
  rw [show resolve env symbol = _ from funext (resolve_eq env symbol)]
  apply EndsIn.change
  intro w hw
  refine ⟨⟨hw.inert.consulted env symbol, ?_⟩, hw.inert.resolve env symbol⟩
  obtain ⟨_, _, hconsulted⟩ := w.consulted_eq env symbol
  rw [hconsulted]
  exact hw.level.of_eq rfl rfl

/-! ## One evaluation -/

namespace Expr

section

variable {I : World → Prop} (hI : Elastic I) {eval : Expr → Run Value} {eq : Comparison}
  (heq : eq.Sure I E) {display : Value → Run String}
  (hdisplay : ∀ v, v.Inert → (display v).EndsIn I (fun _ => True) E)

theorem evalMetadata_endsIn {context : String} {x : Expr} (heval : (eval x).EndsIn I Value.Inert E)
    (hE : ∀ got,
      E ((Error.typeMismatch "ArrayMap" got (some context)).located x.position)) :
    (evalWith.evalMetadata eval context x).EndsIn I (fun m => (Value.map m).Inert) E := by
  refine heval.bind fun v hv => ?_
  split
  · exact .pure hv
  · exact .fail (hE _)

include hI heq hdisplay

theorem addEntries_endsIn {entries : List (Expr × Expr)}
    (heval : ∀ e ∈ entries, (eval e.1).EndsIn I Value.Inert E ∧ (eval e.2).EndsIn I Value.Inert E)
    (hE : ∀ key, E (.duplicateKey key)) {m : Dict} (hm : (Value.map m).Inert) :
    (evalWith.addEntries eval eq display m entries).EndsIn I
      (fun m' => (Value.map m').Inert) E := by
  induction entries generalizing m with
  | nil => exact .pure hm
  | cons entry entries ih =>
    obtain ⟨⟨hkey, hvalue⟩, heval⟩ := List.forall_mem_cons.1 heval
    refine hkey.bind fun key hkey => hvalue.bind fun value hvalue => ?_
    refine (Dict.add?_endsIn hI heq hm hkey hvalue).bind fun added hadded => ?_
    cases added with
    | some m' => exact ih heval (hadded m' rfl)
    | none => exact (hdisplay key hkey).bind fun text _ => .fail (hE text)

theorem addItems_endsIn {items : List Expr} (heval : ∀ x ∈ items, (eval x).EndsIn I Value.Inert E)
    (hE : ∀ element, E (.duplicateElement element)) {s : ElemSet} (hs : (Value.set s).Inert) :
    (evalWith.addItems eval eq display s items).EndsIn I (fun s' => (Value.set s').Inert) E := by
  induction items generalizing s with
  | nil => exact .pure hs
  | cons x items ih =>
    obtain ⟨hx, heval⟩ := List.forall_mem_cons.1 heval
    refine hx.bind fun value hvalue => ?_
    refine (ElemSet.add?_endsIn hI heq hs hvalue).bind fun added hadded => ?_
    cases added with
    | some s' => exact ih heval (hadded s' rfl)
    | none => exact (hdisplay value hvalue).bind fun text _ => .fail (hE text)

end

/-- An evaluation whose nested evaluations fail with traced errors fails with a traced error, once
it is stamped with the position of the node. -/
theorem evalWith_endsIn {x : Expr} (hx : x.Inert) (env : FrameRef) {eval : Expr → Run Value}
    (heval : ∀ y ∈ x.children,
      (eval y).EndsIn (Calm limit (depth + 1)) Value.Inert (Traced limit (depth + 1) y))
    {call : Value → List Value → Run Value}
    (hcall : ∀ f args, f.Inert → f.isCallable = true → (∀ a ∈ args, a.Inert) →
      (call f args).EndsIn (Calm limit (depth + 1)) Value.Inert Error.OfCall)
    {eq : Comparison} (heq : ∀ E, eq.Sure (Calm limit (depth + 1)) E)
    {display : Value → Run String}
    (hdisplay : ∀ E v, v.Inert → (display v).EndsIn (Calm limit (depth + 1)) (fun _ => True) E) :
    (x.evalWith eval call eq display env).EndsIn (Calm limit (depth + 1)) Value.Inert
      fun e => Traced limit depth x (e.located x.position) := by
  have hI := Calm.elastic limit (depth + 1)
  have hchild : ∀ y ∈ x.children, (eval y).EndsIn (Calm limit (depth + 1)) Value.Inert
      fun e => Traced limit depth x (e.located x.position) :=
    fun y hy => (heval y hy).mono (fun _ h => h) fun e he => he.child hy x.position
  cases x with
  | literal value p => exact .pure ((inert_iff.1 hx).1 value p rfl)
  | ref v p =>
    apply v.deref_endsIn
    exact (Raises.ref v p).traced_located
  | symbol name p =>
    refine (Env.resolve_endsIn env name).bind fun o ho => ?_
    cases o with
    | some value => exact .pure (ho value rfl)
    | none => exact .fail (Raises.symbol name p).traced_located
  | vector items p =>
    refine (EndsIn.mapM hchild).bind fun values hvalues => ?_
    exact (Vec.ofList_endsIn hI hvalues).bind fun v hv => .pure hv
  | map entries p =>
    refine (Dict.new_endsIn hI).bind fun m hm => ?_
    refine (addEntries_endsIn hI (heq _) (hdisplay _) (forall_entries hchild) ?_ hm).bind
      fun m' hm' => .pure hm'
    exact fun key => (Raises.map entries p key).traced_located
  | set items p =>
    refine (ElemSet.new_endsIn hI).bind fun s hs => ?_
    refine (addItems_endsIn hI (heq _) (hdisplay _) hchild ?_ hs).bind fun s' hs' => .pure hs'
    exact fun element => (Raises.set items p element).traced_located
  | define v value metadata p =>
    have hdefined {y : Expr} (hy : metadata = some y) (got : String) :
        Traced limit depth (define v value metadata p)
          ((Error.typeMismatch "ArrayMap" got (some "def")).located y.position) :=
      hy ▸ (Raises.defined v value y p got).traced
    have hannotate {y : Expr} (hy : metadata = some y) :=
      (evalMetadata_endsIn (hchild y (by simp [children, hy])) (hdefined hy)).bind fun m _ =>
        (v.setMetadata_endsIn (some m)).bind fun _ _ => EndsIn.pure (inert_atom (a := .var v) rfl)
    cases value with
    | none =>
      cases metadata with
      | none => exact .pure (inert_atom (a := .var v) rfl)
      | some y => exact hannotate rfl
    | some z =>
      refine (hchild z (by simp [children])).bind fun bound hbound => ?_
      refine (v.bind_endsIn hbound).bind fun _ _ => ?_
      cases metadata with
      | none => exact .pure (inert_atom (a := .var v) rfl)
      | some y => exact hannotate rfl
  | annotate metadata body p =>
    have hannotated (got : String) : Traced limit depth (annotate metadata body p)
        ((Error.typeMismatch "ArrayMap" got (some "with-meta")).located metadata.position) :=
      (Raises.annotated metadata body p got).traced
    have hmetadata := evalMetadata_endsIn (hchild metadata (by simp [children])) hannotated
    refine hmetadata.bind fun m hm => (hchild body (by simp [children])).bind fun v hv => ?_
    exact Value.withMeta_endsIn hI (heq _) hv hm (Raises.annotate metadata body p _).traced_located
  | call callee args p =>
    refine (hchild callee (by simp [children])).bind fun target htarget => ?_
    split
    · next hcallable =>
      have hargs := EndsIn.mapM fun y (hy : y ∈ args) => hchild y (by simp [children, hy])
      refine hargs.bind fun values hvalues => ?_
      refine (hcall target values htarget hcallable hvalues).mono (fun _ h => h) fun e he => ?_
      exact (Raises.call callee args p he).traced_located
    · refine (hdisplay _ target htarget).bind fun text _ => .fail ?_
      exact (Raises.callee callee args p text).traced
  | block body p => exact EndsIn.foldlM (fun _ _ y hy => hchild y hy) (inert_atom (a := .nil) rfl)
  | branch condition positive negative p =>
    refine (hchild condition (by simp [children])).bind fun value _ => ?_
    split
    · exact hchild positive (by simp [children])
    · cases negative with
      | some y => exact hchild y (by simp [children])
      | none => exact .pure (inert_atom (a := .nil) rfl)

end Expr

/-! ## The machine -/

/-- A nested evaluation either is one too many or goes on one level down. -/
theorem Run.nested_endsIn {α : Type} {x : Run α} {P : α → Prop}
    (hx : x.EndsIn (Calm limit (depth + 1)) P E) (hE : depth = limit → E (.depthExceeded limit)) :
    x.nested.EndsIn (Calm limit depth) P E := by
  intro w r w' hw hrun
  rcases Run.nested_cases hrun with ⟨hdepth, rfl, rfl⟩ | ⟨hdepth, v, hv, rfl⟩
  · have hbounded := hw.level.bounded
    rw [hw.level.depth_eq, hw.level.limit_eq] at hdepth
    rw [hw.level.limit_eq]
    exact ⟨hw, hE (by omega)⟩
  · have hnext : Calm limit (depth + 1) w.below :=
      ⟨⟨hw.inert.frames, hw.inert.vars⟩, hw.level.enter hdepth⟩
    obtain ⟨hv, ht⟩ := hx _ _ _ hnext hv
    exact ⟨⟨⟨hv.inert.frames, hv.inert.vars⟩, hv.level.leave⟩, ht⟩

namespace Machine

/-- An inert value that can be called is a collection. -/
theorem call_endsIn (n : Nat) {f : Value} (hf : f.Inert) (hcallable : f.isCallable = true)
    {args : List Value} (hargs : ∀ a ∈ args, a.Inert) :
    (call n f args).EndsIn (Calm limit depth) Value.Inert Error.OfCall := by
  have hI := Calm.elastic limit depth
  cases n with
  | zero => exact .exhausted
  | succ n =>
    have heq := Value.equals_sure (force n) hI Error.OfCall n
    cases f with
    | map m => exact Dict.call_endsIn heq hf hargs
    | vector v => exact Vec.call_endsIn hf args
    | set s => exact ElemSet.call_endsIn heq hf hargs
    | seq s => cases hcallable
    | atom a =>
      have hproc := (Value.inert_iff.1 hf).1.1
      cases a with
      | proc p => cases hproc
      | _ => cases hcallable

/-- Errors are traced to their nodes, by induction on the fuel for all expressions and depths. -/
theorem eval_endsIn (n : Nat) {x : Expr} (hx : x.Inert) (env : FrameRef) (depth : Nat) :
    (eval n x env).EndsIn (Calm limit depth) Value.Inert (Expr.Traced limit depth x) := by
  induction n generalizing x depth with
  | zero => exact .exhausted
  | succ n ih =>
    have hI := Calm.elastic limit (depth + 1)
    rw [eval]
    apply EndsIn.mapError
    apply Run.nested_endsIn
    · apply Expr.evalWith_endsIn hx env
      · exact fun y hy => ih ((Expr.inert_iff.1 hx).2 y hy) (depth + 1)
      · exact fun f args hf hcallable hargs => call_endsIn n hf hcallable hargs
      · exact fun E => Value.equals_sure (force n) hI E n
      · exact fun E v hv => Value.display_endsIn (force n) hI n hv
    · intro hdepth
      exact (Expr.Raises.deep x (by rw [hdepth])).traced_located

/-- If an evaluation fails in a world and on an expression without procedures and lazy cells, its
error has one position and is traced to the node that raises it. -/
theorem eval_error_traced {n : Nat} {x : Expr} {env : FrameRef} {w w' : World} {e : Error}
    (hx : x.Inert) (hw : w.Inert) (hdepth : w.depth ≤ w.maxDepth)
    (h : eval n x env w = some (.error e, w')) : x.Traced w.maxDepth w.depth e :=
  (eval_endsIn n hx env w.depth w _ w' ⟨hw, rfl, rfl, hdepth⟩ h).2

/-- Metadata that is not a map, in a tree that is just not too deep. -/
theorem eval_error_traced_metadata :
    let metadata : Expr := .literal (.int 1) ⟨2, 4⟩
    let x : Expr := .block [.annotate metadata (.literal .nil ⟨2, 6⟩) ⟨2, 1⟩] ⟨1, 1⟩
    let w : World := { depth := 7, maxDepth := 10 }
    let e : Error := .positioned ⟨2, 4⟩ (.typeMismatch "ArrayMap" "Int" (some "with-meta"))
    (x.Inert ∧ w.Inert ∧ w.depth ≤ w.maxDepth ∧ ∃ w', eval 4 x 0 w = some (.error e, w')) ∧
      x.Traced w.maxDepth w.depth e := by
  intro metadata x w e
  have hliteral {a : Atom} (p : Position) (h : (Value.atom a).isProc = false) :
      (Expr.literal (.atom a) p).Inert := by
    refine Expr.inert_iff.2 ⟨fun v q hv => ?_, by simp [Expr.children]⟩
    cases hv
    exact inert_atom h
  have hannotate : (Expr.annotate metadata (.literal .nil ⟨2, 6⟩) ⟨2, 1⟩).Inert :=
    Expr.inert_iff.2 ⟨by simp, by simpa [Expr.children] using ⟨hliteral _ rfl, hliteral _ rfl⟩⟩
  have hx : x.Inert := Expr.inert_iff.2 ⟨by simp [x], by simpa [Expr.children, x] using hannotate⟩
  have hw : w.Inert := ⟨by simp [w, Heap.get?], by simp [w, Heap.get?]⟩
  have hdepth : w.depth ≤ w.maxDepth := by decide
  have hrun : eval 4 x 0 w = some (.error e, w) := rfl
  exact ⟨⟨hx, hw, hdepth, w, hrun⟩, eval_error_traced hx hw hdepth hrun⟩

end Machine

end LispKernel
