import LispKernel.Proofs.Mirror.Machine

/-!
# The footprint of an evaluation

Without procedures and lazy cells, and with the current namespace in place, an evaluation changes
nothing but the vars that are defined in the expression, and takes storage. So an expression without
definitions leaves the world as it was, and to evaluate it again gives the same error, or the same
value with other numbers for the storage that was taken.
-/
namespace LispKernel

namespace World

/-- Of the first world at most the given vars, the next storage and the depth are changed, and what
was bound is bound. -/
structure Touched (w : World) (cells : VarRef → Prop) (v : World) : Prop where
  same : v = { w with vars := v.vars, storages := v.storages, depth := v.depth }
  others {cell : VarRef} : ¬ cells cell → v.vars.get? cell = w.vars.get? cell
  bound {cell : VarRef} : w.Bound cell → v.Bound cell

variable {w v : World} {cells : VarRef → Prop}

theorem Touched.refl (w : World) (cells : VarRef → Prop) : w.Touched cells w :=
  ⟨rfl, fun _ => rfl, id⟩

theorem Touched.deepened (h : w.Touched cells v) (storages depth : Nat) :
    w.Touched cells { v with storages, depth } where
  same := congrArg (fun u : World => { u with storages, depth }) h.same
  others := h.others
  bound := h.bound

theorem Touched.set (h : w.Touched cells v) {cell : VarRef} (hcell : cells cell) {c : VarCell}
    (hc : v.Bound cell → c.value.isSome) :
    w.Touched cells { v with vars := v.vars.set cell c } where
  same := congrArg (fun u : World => { u with vars := v.vars.set cell c }) h.same
  others {other} hother := by
    rw [← h.others hother, Heap.get?_set, if_neg]
    rintro ⟨rfl, -⟩
    exact hother hcell
  bound {other} hother := (Registry.Step.cell hc).retains.bound (h.bound hother)

/-- If no var is touched, all vars are as they were. -/
theorem Touched.vars_eq (h : w.Touched (fun _ => False) v) : v.vars = w.vars :=
  Heap.ext_get? fun _ => h.others id

end World

/-- The worlds in which an evaluation has touched at most the given vars. -/
def Mirror.touching (w : World) (cells : VarRef → Prop) : Mirror where
  Holds v := v.Inert ∧ w.Touched cells v
  image := id
  number := id
  injective := Function.injective_id
  storages _ := rfl
  store hv := ⟨⟨⟨hv.1.frames, hv.1.vars⟩, hv.2.deepened _ _⟩, rfl⟩
  printLength _ := rfl

namespace Mirror

theorem touching_nests (w : World) (cells : VarRef → Prop) :
    (touching w cells).Nests fun _ => False where
  enter hv hdepth := ⟨⟨⟨hv.1.frames, hv.1.vars⟩, hv.2.deepened _ _⟩, rfl, hdepth⟩
  leave hv := ⟨⟨⟨hv.1.frames, hv.1.vars⟩, hv.2.deepened _ _⟩, rfl⟩
  stop _ _ := .inr ⟨rfl, rfl⟩
  located _ he := he

theorem touching_fits {w : World} {env : FrameRef} (hcurrent : w.HasCurrent (w.registryOf env))
    {x : Expr} (hx : x.Inert) : (touching w x.Defines).Fits env x := by
  apply Fits.of_same hx
  · exact fun l v p _ => v.rename_id
  · exact fun v hv => ⟨hv.1, rfl, rfl, rfl, rfl⟩
  · exact fun v a _ _ => a.rename_id
  · intro v symbol hv
    have hkept : v.HasCurrent (v.registryOf env) := by
      rw [hv.2.same]
      exact hcurrent
    refine ⟨?_, rfl⟩
    rw [hkept.consulted_eq symbol]
    exact hv
  · exact fun v cell c hv hcell hinert hbound =>
      ⟨rfl, ⟨hv.1.setVar cell hinert, hv.2.set hcell hbound⟩, rfl⟩

end Mirror

/-! ## Evaluating again -/

/-- All storage in the values of frames and vars has been taken. -/
def World.Issued (w : World) : Prop := ∀ v, w.Stores v → v.Issued w.storages

def Expr.Issued (k : Storage) (x : Expr) : Prop := ∀ l v p, x.At l (.literal v p) → v.Issued k

/-- The numbers from `base` on are moved up by `k`. -/
def Renaming.shift (base k : Nat) : Renaming := fun s => if s < base then s else s + k

namespace Renaming

theorem shift_of_lt {base k : Nat} {s : Storage} (h : s < base) : shift base k s = s := if_pos h

theorem shift_of_le {base k : Nat} {s : Storage} (h : base ≤ s) : shift base k s = s + k :=
  if_neg (Nat.not_lt.2 h)

theorem shift_injective (base k : Nat) : Function.Injective (shift base k) := by
  have hnumbers : Function.Injective fun s : Nat => if s < base then s else s + k := by
    intro s t h
    simp only at h
    split at h <;> split at h <;> omega
  exact hnumbers

end Renaming

/-- The world from which an evaluation starts that defines nothing, at any depth and with any
storage taken since, with more storage taken before. -/
def Mirror.shifted (w : World) (k : Nat) : Mirror where
  Holds v := ∃ storages depth, w.storages ≤ storages ∧ v = { w with storages, depth }
  image v := { v with storages := v.storages + k }
  number := .shift w.storages k
  injective := Renaming.shift_injective _ _
  storages := by
    rintro v ⟨storages, depth, hle, rfl⟩
    exact (Renaming.shift_of_le hle).symm
  store := by
    rintro v ⟨storages, depth, hle, rfl⟩
    exact ⟨⟨storages + 1, depth, Nat.le_succ_of_le hle, rfl⟩, by simp [Nat.add_right_comm]⟩
  printLength _ := rfl

namespace Mirror

theorem shifted_nests (w : World) (k : Nat) : (shifted w k).Nests fun _ => False where
  enter := by
    rintro v ⟨storages, depth, hle, rfl⟩ hdepth
    exact ⟨⟨storages, depth + 1, hle, rfl⟩, rfl, hdepth⟩
  leave := by
    rintro v ⟨storages, depth, hle, rfl⟩
    exact ⟨⟨storages, depth - 1, hle, rfl⟩, rfl⟩
  stop _ _ := .inr ⟨rfl, rfl⟩
  located _ he := he

theorem shifted_fits {w : World} {env : FrameRef} (hcurrent : w.HasCurrent (w.registryOf env))
    (hw : w.Inert) (hissued : w.Issued) {x : Expr} (hx : x.Inert)
    (hliteral : x.Issued w.storages) (hpure : ∀ cell, ¬ x.Defines cell) (k : Nat) :
    (shifted w k).Fits env x := by
  -- what is stored was there before the evaluation, so it keeps its numbers
  have hold : ∀ s < w.storages, (shifted w k).number s = s := fun s => Renaming.shift_of_lt
  apply Fits.of_same hx
  · exact fun l v p hnode => hliteral l v p hnode _ hold
  · rintro v ⟨storages, depth, hle, rfl⟩
    exact ⟨⟨hw.frames, hw.vars⟩, rfl, rfl, rfl, rfl⟩
  · rintro v a ⟨storages, depth, hle, rfl⟩ ha
    have hstored : w.Stores a := by
      cases ha with
      | binding hframe hbinding => exact .binding hframe hbinding
      | var hcell hvalue => exact .var hcell hvalue
    exact hissued a hstored _ hold
  · rintro v symbol ⟨storages, depth, hle, rfl⟩
    have hconsulted (s : Nat) : World.consulted { w with storages := s, depth } env symbol =
        { w with storages := s, depth } := by
      apply World.HasCurrent.consulted_eq
      exact hcurrent
    simp only [shifted, hconsulted, and_true]
    exact ⟨storages, depth, hle, rfl⟩
  · exact fun v cell c _ hcell => absurd hcell (hpure cell)

end Mirror

/-- Every level of depth is given back and no storage. -/
theorem storages_steps : Steps fun w v => v.depth = w.depth ∧ w.storages ≤ v.storages where
  refl _ := ⟨rfl, Nat.le_refl _⟩
  trans h h' := ⟨h'.1.trans h.1, Nat.le_trans h.2 h'.2⟩
  storage _ := ⟨rfl, Nat.le_succ _⟩
  frame _ _ := ⟨rfl, Nat.le_refl _⟩
  vars _ _ := ⟨rfl, Nat.le_refl _⟩
  namespaces _ _ := ⟨rfl, Nat.le_refl _⟩
  registries _ _ := ⟨rfl, Nat.le_refl _⟩
  counters _ _ := ⟨rfl, Nat.le_refl _⟩
  log _ _ := ⟨rfl, Nat.le_refl _⟩
  suspend _ _ _ := ⟨rfl, Nat.le_refl _⟩
  start _ := ⟨rfl, Nat.le_refl _⟩
  fill _ _ h _ := h
  nested h := ⟨congrArg (· - 1) h.1, h.2⟩

namespace Machine

variable {n : Nat} {x : Expr} {env : FrameRef} {w : World} {r : Except Error Value} {w' : World}

/-- An evaluation touches only the vars that the expression defines. -/
theorem eval_touched (hx : x.Inert) (hw : w.Inert) (hcurrent : w.HasCurrent (w.registryOf env))
    (h : eval n x env w = some (r, w')) : w.Touched x.Defines w' := by
  have hexact := eval_follows (Mirror.touching_nests w _) (Mirror.touching_fits hcurrent hx) n
  exact (hexact.image ⟨hw, .refl w _⟩ h).1.2

theorem eval_storages (h : eval n x env w = some (r, w')) :
    w'.depth = w.depth ∧ w.storages ≤ w'.storages :=
  ((refines storages_steps (Nat.le_refl n)).1 x env w r w' h).2

/-- Without definitions, all that is left of an evaluation is the storage that it has taken. -/
theorem eval_unchanged (hx : x.Inert) (hw : w.Inert) (hcurrent : w.HasCurrent (w.registryOf env))
    (hpure : ∀ cell, ¬ x.Defines cell) (h : eval n x env w = some (r, w')) :
    w' = { w with storages := w'.storages } := by
  have hdepth := (eval_storages h).1
  have htouched := eval_touched hx hw hcurrent h
  rw [show x.Defines = fun _ => False from funext fun cell => eq_false (hpure cell)] at htouched
  rw [htouched.same, htouched.vars_eq, hdepth]

/-- Without definitions, a second evaluation ends like the first one, in storage of its own. -/
theorem eval_again (hx : x.Inert) (hw : w.Inert) (hcurrent : w.HasCurrent (w.registryOf env))
    (hpure : ∀ cell, ¬ x.Defines cell) (hissued : w.Issued) (hliteral : x.Issued w.storages)
    (h : eval n x env w = some (r, w')) :
    ∃ ρ : Renaming, Function.Injective ρ ∧ (∀ s < w.storages, ρ s = s) ∧
      ∃ k, eval n x env w' = some (r.map (Value.rename ρ), { w with storages := k }) := by
  have hstorages := (eval_storages h).2
  have hw' := eval_unchanged hx hw hcurrent hpure h
  -- the second evaluation starts in the image of the world in which the first one starts
  let M := Mirror.shifted w (w'.storages - w.storages)
  have himage : M.image w = w' := by
    rw [hw']
    simp only [M, Mirror.shifted, Nat.add_sub_cancel' hstorages]
  have hfits : M.Fits env x := Mirror.shifted_fits hcurrent hw hissued hx hliteral hpure _
  have hexact := eval_follows (Mirror.shifted_nests w _) hfits n
  obtain ⟨-, hagain⟩ := hexact.image ⟨w.storages, w.depth, Nat.le_refl _, rfl⟩ h
  refine ⟨M.number, M.injective, fun s => Renaming.shift_of_lt, (M.image w').storages, ?_⟩
  rw [himage] at hagain
  rw [hagain, hw']
  rfl

/-- The frame of evaluation. However an evaluation ends, nothing but vars and the next storage has
changed: all frames, the vars and refers of all namespaces, the entries and the current namespace of
all registries are as they were. So are the vars that the expression does not define, with their
metadata, and what was bound is bound. If the expression defines nothing, the world is as it was but
for the storage taken. Then to evaluate again gives the same error, or the same value with other
numbers for the storage taken, provided that the storage in stored values and literals was taken
before. -/
theorem eval_footprint (hx : x.Inert) (hw : w.Inert) (hcurrent : w.HasCurrent (w.registryOf env))
    (h : eval n x env w = some (r, w')) :
    w' = { w with vars := w'.vars, storages := w'.storages } ∧ w.storages ≤ w'.storages ∧
    (∀ cell, ¬ x.Defines cell → w'.vars.get? cell = w.vars.get? cell) ∧
    (∀ cell, w.Bound cell → w'.Bound cell) ∧
    ((∀ cell, ¬ x.Defines cell) →
      w' = { w with storages := w'.storages } ∧
      (w.Issued → x.Issued w.storages →
        ∃ ρ : Renaming, Function.Injective ρ ∧ (∀ s < w.storages, ρ s = s) ∧
          ∃ k, eval n x env w' = some (r.map (Value.rename ρ), { w with storages := k }))) := by
  obtain ⟨hdepth, hstorages⟩ := eval_storages h
  have htouched := eval_touched hx hw hcurrent h
  have hsame := htouched.same
  rw [hdepth] at hsame
  refine ⟨hsame, hstorages, fun cell => htouched.others, fun cell => htouched.bound, ?_⟩
  intro hpure
  exact ⟨eval_unchanged hx hw hcurrent hpure h,
    fun hissued hliteral => eval_again hx hw hcurrent hpure hissued hliteral h⟩

/-- A vector of what a global symbol stands for, evaluated twice. -/
theorem eval_footprint_vector :
    let p : Position := ⟨1, 1⟩
    let x : Expr := .vector [.symbol ⟨none, "a"⟩ p] p
    let w : World := { frames := ⟨#[⟨[], none, 0⟩]⟩, vars := ⟨#[{ value := some (.int 1) }]⟩,
                       namespaces := ⟨#[⟨"user", [("a", ⟨some "user", ⟨none, "a"⟩, 0⟩)], []⟩]⟩,
                       registries := ⟨#[⟨[("user", 0)], "user"⟩]⟩ }
    let out : Value := .vector ⟨⟨0, [.int 1]⟩, ⟨none, none⟩⟩
    (x.Inert ∧ w.Inert ∧ w.HasCurrent (w.registryOf 0) ∧ (∀ cell, ¬ x.Defines cell) ∧ w.Issued ∧
        x.Issued w.storages ∧ eval 3 x 0 w = some (.ok out, { w with storages := 1 })) ∧
      ∃ ρ : Renaming, Function.Injective ρ ∧
        ∃ k, eval 3 x 0 { w with storages := 1 } =
          some (.ok (out.rename ρ), { w with storages := k }) := by
  intro p x w out
  have hrun : eval 3 x 0 w = some (.ok out, { w with storages := 1 }) := rfl
  have hnodes {l : Nat} {node : Expr} (h : x.At l node) :
      node = x ∨ node = .symbol ⟨none, "a"⟩ p := by
    cases h with
    | root => exact .inl rfl
    | child hy hnode =>
      cases List.mem_singleton.1 hy
      cases hnode with
      | root => exact .inr rfl
      | child hy _ => cases hy
  have hpure (cell : VarRef) : ¬ x.Defines cell := by
    rintro ⟨l, v, value, metadata, q, hnode, -⟩
    rcases hnodes hnode with h | h <;> simp [x] at h
  have hliteral {l : Nat} {v : Value} {q : Position} : ¬ x.At l (.literal v q) := by
    intro hnode
    rcases hnodes hnode with h | h <;> simp [x] at h
  have hstored {v : Value} (h : w.Stores v) : v = .int 1 := by
    cases h with
    | @binding i f b hframe hbinding =>
      cases i with
      | zero =>
        cases hframe
        cases hbinding
      | succ i => simp [w, Heap.get?] at hframe
    | @var i cell v hcell hvalue =>
      cases i with
      | zero =>
        cases hcell
        cases hvalue
        rfl
      | succ i => simp [w, Heap.get?] at hcell
  have hx : x.Inert := fun l v q hnode => absurd hnode hliteral
  have hw : w.Inert := by
    refine ⟨fun hframe b hb => ?_, fun hcell a ha => ?_⟩
    · rw [hstored (.binding hframe hb)]
      exact Value.inert_atom rfl
    · rw [hstored (.var hcell ha)]
      exact Value.inert_atom rfl
  have hissued : w.Issued := by
    intro v hv ρ _
    rw [hstored hv]
    rfl
  have hxissued : x.Issued w.storages := fun l v q hnode => absurd hnode hliteral
  have hcurrent : w.HasCurrent (w.registryOf 0) := rfl
  refine ⟨⟨hx, hw, hcurrent, hpure, hissued, hxissued, hrun⟩, ?_⟩
  obtain ⟨-, -, -, -, hagain⟩ := eval_footprint hx hw hcurrent hrun
  obtain ⟨ρ, hρ, -, k, hrun'⟩ := (hagain hpure).2 hissued hxissued
  exact ⟨ρ, hρ, k, hrun'⟩

end Machine

end LispKernel
