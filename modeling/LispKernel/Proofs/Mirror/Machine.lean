import LispKernel.Proofs.Evaluation.Provenance
import LispKernel.Proofs.Mirror.Walk

/-!
# Evaluation in the image of a world

An evaluation without procedures and lazy cells follows in the image of a world, with the image of
its value, if the mirror fits the symbols, vars, definitions and literals of the expression and
shows how deep evaluation is.
-/
namespace LispKernel

open Value (Inert inert_iff inert_vector inert_set inert_map inert_atom)

namespace Mirror

/-- What the mirror shows of the depth. Where evaluation is not begun since it would be too deep,
this is excused or the image is as deep and has the same limit. -/
structure Nests (M : Mirror) (X : Error → Prop) : Prop where
  enter {w : World} : M.Holds w → ¬ w.maxDepth < w.depth + 1 → M.Holds w.below ∧
    M.image w.below = (M.image w).below ∧ ¬ (M.image w).maxDepth < (M.image w).depth + 1
  leave {w : World} : M.Holds w → M.Holds w.above ∧ M.image w.above = (M.image w).above
  stop {w : World} : M.Holds w → w.maxDepth < w.depth + 1 → X (.depthExceeded w.maxDepth) ∨
    (M.image w).depth = w.depth ∧ (M.image w).maxDepth = w.maxDepth
  located {e : Error} (p : Position) : X e → X (e.located p)

/-- What the mirror shows of the vars and symbols of an expression, and of its literals. -/
structure Fits (M : Mirror) (env : FrameRef) (x : Expr) : Prop where
  literal {l : Nat} {v : Value} {p : Position} : x.At l (.literal v p) →
    v.Inert ∧ v.rename M.number = v
  ref {l : Nat} {v : Var} {p : Position} : x.At l (.ref v p) →
    M.Exact (fun o => ∀ a ∈ o, a.Inert) (Option.map (Value.rename M.number)) v.value? v.value?
  symbol {l : Nat} {name : Name} {p : Position} : x.At l (.symbol name p) →
    M.Exact (fun o => ∀ a ∈ o, a.Inert) (Option.map (Value.rename M.number))
      (Env.resolve env name) (Env.resolve env name)
  bind {l : Nat} {v : Var} {value metadata : Option Expr} {p : Position} {a : Value} :
    x.At l (.define v value metadata p) → a.Inert →
    M.Exact (fun _ => True) id (v.bind a) (v.bind (a.rename M.number))
  setMetadata {l : Nat} {v : Var} {value metadata : Option Expr} {p : Position} {m : Dict} :
    x.At l (.define v value metadata p) → (Value.map m).Inert →
    M.Exact (fun _ => True) id (v.setMetadata (some m)) (v.setMetadata (some (m.rename M.number)))

variable {M : Mirror} {X : Error → Prop}

theorem Fits.child {env : FrameRef} {x y : Expr} (h : M.Fits env x) (hy : y ∈ x.children) :
    M.Fits env y where
  literal hnode := h.literal (.child hy hnode)
  ref hnode := h.ref (.child hy hnode)
  symbol hnode := h.symbol (.child hy hnode)
  bind hnode := h.bind (.child hy hnode)
  setMetadata hnode := h.setMetadata (.child hy hnode)

theorem Nests.nested {α β : Type} {P : α → Prop} {f : α → β} {x : Run α} {y : Run β}
    (hM : M.Nests X) (h : M.Follows X P f x y) : M.Follows X P f x.nested y.nested := by
  intro w r w' hw hrun
  rcases Run.nested_cases hrun with ⟨hdepth, rfl, rfl⟩ | ⟨hdepth, v, hinner, rfl⟩
  · refine (hM.stop hw hdepth).imp_right fun ⟨hlevel, hlimit⟩ => ⟨hw, ?_⟩
    have hdepth' : (M.image w').maxDepth < (M.image w').depth + 1 := by rwa [hlevel, hlimit]
    rw [Run.nested_of_limit y hdepth', hlimit]
  · obtain ⟨henter, himage, hdepth'⟩ := hM.enter hw hdepth
    have hfollow := h _ _ _ henter hinner
    rw [himage] at hfollow
    cases r with
    | ok a =>
      obtain ⟨ha, hv, hy⟩ := hfollow
      obtain ⟨hleave, himage'⟩ := hM.leave hv
      exact ⟨ha, hleave, by rw [Run.nested_of_some hdepth' hy, himage']⟩
    | error e =>
      refine hfollow.imp_right fun ⟨hv, hy⟩ => ?_
      obtain ⟨hleave, himage'⟩ := hM.leave hv
      exact ⟨hleave, by rw [Run.nested_of_some hdepth' hy, himage']⟩

end Mirror

variable {M : Mirror} {X : Error → Prop}

/-! ## Vars and symbols -/

/-- A symbol resolves to the image of what it resolves to in the world that is mirrored. -/
theorem Env.resolve_mirrored {env : FrameRef} {symbol : Name} (h : ∀ w, M.Holds w → w.Inert ∧
      M.Holds (w.consulted env symbol) ∧
      (M.image w).resolve env symbol = (w.resolve env symbol).map (Value.rename M.number) ∧
      (M.image w).consulted env symbol = M.image (w.consulted env symbol)) :
    M.Exact (fun o => ∀ v ∈ o, v.Inert) (Option.map (Value.rename M.number))
      (resolve env symbol) (resolve env symbol) := by
  rw [show resolve env symbol = _ from funext (resolve_eq env symbol)]
  apply Mirror.Follows.change
  intro w hw
  obtain ⟨hinert, hholds, hvalue, hworld⟩ := h w hw
  exact ⟨hinert.resolve env symbol, hholds, hvalue, hworld⟩

theorem Var.value?_mirrored {v : Var} (h : ∀ w, M.Holds w → w.Inert ∧
      ((M.image w).varCell v.cell).value =
        (w.varCell v.cell).value.map (Value.rename M.number)) :
    M.Exact (fun o => ∀ v ∈ o, v.Inert) (Option.map (Value.rename M.number)) v.value? v.value? := by
  apply Mirror.Follows.gets
  intro w hw
  obtain ⟨hinert, hvalue⟩ := h w hw
  exact ⟨hinert.varCell v.cell, hvalue⟩

/-- A mirror that shows the bindings as they are fits an inert expression, if it renames nothing in
the values that are stored and in literals, allows to resolve symbols, and allows to set the vars
that the expression defines. -/
theorem Mirror.Fits.of_same {env : FrameRef} {x : Expr} (hx : x.Inert)
    (hliteral : ∀ l v p, x.At l (.literal v p) → v.rename M.number = v)
    (hsame : ∀ w, M.Holds w → w.Inert ∧ w.SameBindings (M.image w))
    (hstored : ∀ w v, M.Holds w → w.Stores v → v.rename M.number = v)
    (hconsulted : ∀ w symbol, M.Holds w → M.Holds (w.consulted env symbol) ∧
      (M.image w).consulted env symbol = M.image (w.consulted env symbol))
    (hset : ∀ w cell c, M.Holds w → x.Defines cell → (∀ a ∈ c.value, a.Inert) →
      (w.Bound cell → c.value.isSome) → M.number = id ∧
      M.Holds { w with vars := w.vars.set cell c } ∧
      { M.image w with vars := (M.image w).vars.set cell c } =
        M.image { w with vars := w.vars.set cell c }) :
    M.Fits env x where
  literal {l v p} hnode := ⟨hx l v p hnode, hliteral l v p hnode⟩
  ref {l v p} _ := by
    apply Var.value?_mirrored
    intro w hw
    obtain ⟨hinert, hshown⟩ := hsame w hw
    refine ⟨hinert, ?_⟩
    rw [hshown.varCell, Value.map_rename_of_fixed]
    exact fun a ha => hstored w a hw (World.stores_of_varCell ha)
  symbol {l name p} _ := by
    apply Env.resolve_mirrored
    intro w hw
    obtain ⟨hinert, hshown⟩ := hsame w hw
    obtain ⟨hholds, hworld⟩ := hconsulted w name hw
    refine ⟨hinert, hholds, ?_, hworld⟩
    rw [hshown.resolve, Value.map_rename_of_fixed]
    exact fun a ha => hstored w a hw (World.stores_of_resolve ha)
  bind {l v value metadata p a} hnode ha := by
    apply Follows.change
    intro w hw
    obtain ⟨hnumber, hholds, hworld⟩ := hset w v.cell
      { w.varCell v.cell with value := some a } hw ⟨l, v, value, metadata, p, hnode, rfl⟩
      (by simpa using ha) (fun _ => rfl)
    refine ⟨trivial, hholds, rfl, ?_⟩
    rw [(hsame w hw).2.varCell, hnumber, a.rename_id]
    exact hworld
  setMetadata {l v value metadata p m} hnode _ := by
    apply Follows.change
    intro w hw
    obtain ⟨hnumber, hholds, hworld⟩ := hset w v.cell
      { w.varCell v.cell with metadata := some m } hw ⟨l, v, value, metadata, p, hnode, rfl⟩
      ((hsame w hw).1.varCell v.cell) id
    refine ⟨trivial, hholds, rfl, ?_⟩
    rw [(hsame w hw).2.varCell, hnumber, m.rename_id]
    exact hworld

/-! ## One evaluation -/

namespace Expr

section

variable {eval eval' : Expr → Run Value} {eq eq' : Comparison}
  (heq : Comparison.Mirrored M eq eq') {display display' : Value → Run String}
  (hdisplay : ∀ v, v.Inert →
    M.Exact (fun _ => True) id (display v) (display' (v.rename M.number)))

theorem evalMetadata_follows (context : String) {x : Expr}
    (heval : M.Follows X Value.Inert (Value.rename M.number) (eval x) (eval' x)) :
    M.Follows X (fun m => (Value.map m).Inert) (Dict.rename M.number)
      (evalWith.evalMetadata eval context x) (evalWith.evalMetadata eval' context x) := by
  refine heval.bind fun v hv => ?_
  cases v with
  | map m => exact .pure hv rfl
  | seq s =>
    simp only [Value.rename, Value.typeName, Seq.typeName_rename]
    exact .fail _
  | _ => exact .fail _

include heq hdisplay

theorem addEntries_follows {entries : List (Expr × Expr)}
    (heval : ∀ e ∈ entries,
      M.Follows X Value.Inert (Value.rename M.number) (eval e.1) (eval' e.1) ∧
      M.Follows X Value.Inert (Value.rename M.number) (eval e.2) (eval' e.2))
    {m : Dict} (hm : (Value.map m).Inert) :
    M.Follows X (fun m' => (Value.map m').Inert) (Dict.rename M.number)
      (evalWith.addEntries eval eq display m entries)
      (evalWith.addEntries eval' eq' display' (m.rename M.number) entries) := by
  induction entries generalizing m with
  | nil => exact .pure hm rfl
  | cons entry entries ih =>
    obtain ⟨⟨hkey, hvalue⟩, heval⟩ := List.forall_mem_cons.1 heval
    refine hkey.bind fun key hkey => hvalue.bind fun value hvalue => ?_
    refine (Dict.add?_mirrored heq hm hkey hvalue).excusing.bind fun added hadded => ?_
    cases added with
    | some m' => exact ih heval (hadded m' rfl)
    | none => exact (hdisplay key hkey).excusing.bind fun _ _ => .fail _

theorem addItems_follows {items : List Expr}
    (heval : ∀ x ∈ items, M.Follows X Value.Inert (Value.rename M.number) (eval x) (eval' x))
    {s : ElemSet} (hs : (Value.set s).Inert) :
    M.Follows X (fun s' => (Value.set s').Inert) (ElemSet.rename M.number)
      (evalWith.addItems eval eq display s items)
      (evalWith.addItems eval' eq' display' (s.rename M.number) items) := by
  induction items generalizing s with
  | nil => exact .pure hs rfl
  | cons x items ih =>
    obtain ⟨hx, heval⟩ := List.forall_mem_cons.1 heval
    refine hx.bind fun value hvalue => ?_
    refine (ElemSet.add?_mirrored heq hs hvalue).excusing.bind fun added hadded => ?_
    cases added with
    | some s' => exact ih heval (hadded s' rfl)
    | none => exact (hdisplay value hvalue).excusing.bind fun _ _ => .fail _

/-- An evaluation follows if those of its children do. -/
theorem evalWith_follows {x : Expr} {env : FrameRef} (hfits : M.Fits env x)
    (heval : ∀ y ∈ x.children,
      M.Follows X Value.Inert (Value.rename M.number) (eval y) (eval' y))
    {call call' : Value → List Value → Run Value}
    (hcall : ∀ f args, f.Inert → f.isCallable = true → (∀ a ∈ args, a.Inert) →
      M.Exact Value.Inert (Value.rename M.number) (call f args)
        (call' (f.rename M.number) (args.map (Value.rename M.number)))) :
    M.Follows X Value.Inert (Value.rename M.number) (x.evalWith eval call eq display env)
      (x.evalWith eval' call' eq' display' env) := by
  cases x with
  | literal value p =>
    obtain ⟨hinert, hfixed⟩ := hfits.literal (.root _)
    exact .pure hinert hfixed
  | ref v p =>
    refine (hfits.ref (.root _)).excusing.bind fun o ho => ?_
    cases o with
    | some a => exact .pure (ho a rfl) rfl
    | none => exact .fail _
  | symbol name p =>
    refine (hfits.symbol (.root _)).excusing.bind fun o ho => ?_
    cases o with
    | some a => exact .pure (ho a rfl) rfl
    | none => exact .fail _
  | vector items p =>
    refine (Mirror.Follows.mapM heval).bind fun values hvalues => ?_
    have hvec := (Vec.ofList_mirrored values).and_endsIn
      (Vec.ofList_endsIn M.elastic (E := fun _ => True) hvalues)
    exact hvec.excusing.bind fun v hv => .pure hv rfl
  | map entries p =>
    have hnew := Dict.new_mirrored.and_endsIn (Dict.new_endsIn M.elastic (E := fun _ => True))
    refine hnew.excusing.bind fun m hm => ?_
    exact (addEntries_follows heq hdisplay (forall_entries heval) hm).bind fun m' hm' =>
      .pure hm' rfl
  | set items p =>
    have hnew := ElemSet.new_mirrored.and_endsIn
      (ElemSet.new_endsIn M.elastic (E := fun _ => True))
    refine hnew.excusing.bind fun s hs => ?_
    exact (addItems_follows heq hdisplay heval hs).bind fun s' hs' => .pure hs' rfl
  | define v value metadata p =>
    have hannotate {y : Expr} (hy : metadata = some y) :
        M.Follows X Value.Inert (Value.rename M.number)
          (do v.setMetadata (some (← evalWith.evalMetadata eval "def" y)); return .var v)
          (do v.setMetadata (some (← evalWith.evalMetadata eval' "def" y)); return .var v) :=
      (evalMetadata_follows "def" (heval y (by simp [children, hy]))).bind fun m hm =>
        (hfits.setMetadata (.root _) hm).excusing.bind fun _ _ => .pure (inert_atom rfl) rfl
    cases value with
    | none =>
      cases metadata with
      | none => exact .pure (inert_atom rfl) rfl
      | some y => exact hannotate rfl
    | some y =>
      refine (heval y (by simp [children])).bind fun a ha => ?_
      refine (hfits.bind (.root _) ha).excusing.bind fun _ _ => ?_
      cases metadata with
      | none => exact .pure (inert_atom rfl) rfl
      | some y => exact hannotate rfl
  | annotate metadata body p =>
    have hmetadata := evalMetadata_follows "with-meta" (heval metadata (by simp [children]))
    refine hmetadata.bind fun m hm => ?_
    refine (heval body (by simp [children])).bind fun v hv => ?_
    exact (Value.withMeta_mirrored heq hv hm).excusing
  | call callee args p =>
    refine (heval callee (by simp [children])).bind fun target htarget => ?_
    rw [Value.isCallable_rename]
    by_cases hcallable : target.isCallable
    · rw [if_pos hcallable, if_pos hcallable]
      have hargs := Mirror.Follows.mapM fun y (hy : y ∈ args) => heval y (by simp [children, hy])
      exact hargs.bind fun values hvalues =>
        (hcall target values htarget hcallable hvalues).excusing
    · rw [if_neg hcallable, if_neg hcallable]
      exact (hdisplay target htarget).excusing.bind fun _ _ => .fail _
  | block body p => exact Mirror.Follows.foldlM (fun _ _ y hy => heval y hy) (inert_atom rfl)
  | branch condition positive negative p =>
    refine (heval condition (by simp [children])).bind fun v hv => ?_
    rw [Value.truthy_rename]
    split
    · exact heval positive (by simp [children])
    · cases negative with
      | some y => exact heval y (by simp [children])
      | none => exact .pure (inert_atom rfl) rfl

end

end Expr

/-! ## The machine -/

namespace Machine

theorem call_mirrored (n : Nat) {f : Value} {args : List Value} (hf : f.Inert)
    (hcallable : f.isCallable = true) (hargs : ∀ a ∈ args, a.Inert) :
    M.Exact Value.Inert (Value.rename M.number) (call n f args)
      (call n (f.rename M.number) (args.map (Value.rename M.number))) := by
  cases n with
  | zero =>
    rw [call]
    exact .exhausted
  | succ n =>
    have heq := Value.equals_mirrored (M := M) (force n) (force n) n
    cases f with
    | map m => exact Dict.call_mirrored heq hf hargs
    | vector v => exact Vec.call_mirrored hf args
    | set s => exact ElemSet.call_mirrored heq hf hargs
    | seq s => cases hcallable
    | atom a =>
      have hproc := (inert_iff.1 hf).1.1
      cases a with
      | proc p => cases hproc
      | _ => cases hcallable

/-- An evaluation follows in the image, by induction on the fuel. -/
theorem eval_follows (hM : M.Nests X) {env : FrameRef} {x : Expr} (hfits : M.Fits env x) (n : Nat) :
    M.Follows X Value.Inert (Value.rename M.number) (eval n x env) (eval n x env) := by
  induction n generalizing x with
  | zero =>
    rw [eval]
    exact .exhausted
  | succ n ih =>
    rw [eval]
    apply Mirror.Follows.mapError fun e (he : X e) => hM.located x.position he
    apply hM.nested
    apply Expr.evalWith_follows (Value.equals_mirrored (force n) (force n) n)
      (fun v hv => Value.display_mirrored (force n) (force n) false n hv) hfits
    · exact fun y hy => ih (hfits.child hy)
    · exact fun f args hf hcallable hargs => call_mirrored n hf hcallable hargs

end Machine

end LispKernel
