import LispKernel.Proofs.Refinement.Machine

/-!
# Failed definitions

A definition binds its var before its metadata is evaluated. So where the metadata fails, the var
may be left with its new value next to its old metadata. What a failed definition leaves is compared
with what its parts leave when they are evaluated alone.
-/
namespace LispKernel

/-- With some fuel the evaluation ends like this. -/
def Evaluates (x : Expr) (env : FrameRef) (w : World) (r : Except Error Value) (w' : World) : Prop :=
  ∃ n, Machine.eval n x env w = some (r, w')

/-- The expressions are evaluated one after the other, up to the first that fails. -/
inductive EvaluatesInTurn (env : FrameRef) : List Expr → World → World → Prop where
  | nil (w : World) : EvaluatesInTurn env [] w w
  | failed {x : Expr} {xs : List Expr} {w u : World} {e : Error} :
      Evaluates x env w (.error e) u → EvaluatesInTurn env (x :: xs) w u
  | next {x : Expr} {xs : List Expr} {w u u' : World} {a : Value} :
      Evaluates x env w (.ok a) u → EvaluatesInTurn env xs u u' →
      EvaluatesInTurn env (x :: xs) w u'

namespace World

/-- The world with a new value in the cell of a var. -/
def bindVar (w : World) (cell : VarRef) (a : Value) : World :=
  { w with vars := w.vars.set cell { w.varCell cell with value := some a } }

end World

/-- A definition that fails is atomic if the cell of its var is left as the parts leave it when they
are evaluated alone. -/
def AtomicFailure (v : Var) (value metadata : Option Expr) (env : FrameRef) (w w' : World) : Prop :=
  ∃ u, EvaluatesInTurn env (value.toList ++ metadata.toList) w.below u ∧
    u.varCell v.cell = w'.varCell v.cell

/-- However the evaluation ends, the cell is as it was. -/
def Expr.Spares (x : Expr) (env : FrameRef) (cell : VarRef) (w : World) : Prop :=
  ∀ r u, Evaluates x env w r u → u.varCell cell = w.varCell cell

section

variable {x y : Expr} {env : FrameRef} {w w' u u' : World} {r r' : Except Error Value} {e : Error}
  {a : Value} {v : Var} {value metadata : Option Expr} {p : Position}

theorem Evaluates.unique (h : Evaluates x env w r u) (h' : Evaluates x env w r' u') :
    r' = r ∧ u' = u := by
  obtain ⟨n, hn⟩ := h
  obtain ⟨m, hm⟩ := h'
  have hmore {k : Nat} (hk : k ≤ max n m) := (Machine.refines Steps.any hk).1 x env w
  have heq := (hmore (Nat.le_max_left ..) _ _ hn).1.symm.trans
    (hmore (Nat.le_max_right ..) _ _ hm).1
  cases heq
  exact ⟨rfl, rfl⟩

theorem Evaluates.not_ok (h : Evaluates x env w (.error e) u) : ¬Evaluates x env w (.ok a) u' :=
  fun hok => nomatch (h.unique hok).1

theorem EvaluatesInTurn.single (h : Evaluates x env w r u) : EvaluatesInTurn env [x] w u := by
  cases r with
  | error e => exact .failed h
  | ok a => exact .next h (.nil u)

/-- Beyond the limit no evaluation is begun. -/
theorem evaluates_of_limit (hlimit : w.maxDepth < w.depth + 1) (x : Expr) (env : FrameRef) :
    Evaluates x env w (.error (.located x.position (.depthExceeded w.maxDepth))) w :=
  ⟨1, by rw [Machine.eval, Run.mapError, Run.nested_of_limit _ hlimit]⟩

theorem Run.mapError_eq_some {α : Type} {x : Run α} {f : Error → Error} {r : Except Error α}
    (h : x.mapError f w = some (r, w')) : ∃ t, x w = some (t, w') ∧ r = t.mapError f := by
  unfold mapError at h
  rcases hx : x w with _ | ⟨e | a, u⟩
  · rw [hx] at h
    cases h
  · rw [hx] at h
    cases h
    exact ⟨_, rfl, rfl⟩
  · rw [hx] at h
    cases h
    exact ⟨_, rfl, rfl⟩

/-! ## What a failed definition leaves -/

theorem Expr.evalMetadata_eq_error {eval : Expr → Run Value} {context : String}
    (h : evalWith.evalMetadata eval context x w = some (.error e, w')) :
    ∃ r, eval x w = some (r, w') := by
  rcases Run.bind_eq_error.1 h with h | ⟨a, u, ha, h⟩
  · exact ⟨_, h⟩
  · -- the check for a map leaves the world alone
    have hu : w' = u := by
      split at h <;> cases h
      rfl
    exact ⟨_, hu ▸ ha⟩

/-- The metadata is all that can still fail when the value is bound. -/
theorem Expr.annotate_eq_error {eval : Expr → Run Value}
    (h : (do
      v.setMetadata (some (← evalWith.evalMetadata eval "def" y))
      return Value.var v : Run Value) w = some (.error e, w')) :
    ∃ r, eval y w = some (r, w') := by
  rcases Run.bind_eq_error.1 h with h | ⟨m, u, -, h⟩
  · exact evalMetadata_eq_error h
  · rcases Run.bind_eq_error.1 h with h | ⟨_, _, _, h⟩ <;> cases h

/-- Either the value did not return, and the parts alone leave the same vars, or it was bound and the
metadata evaluated after that. -/
theorem Evaluates.define_error (h : Evaluates (.define v value metadata p) env w (.error e) w') :
    (∃ u, EvaluatesInTurn env (value.toList ++ metadata.toList) w.below u ∧ w'.vars = u.vars ∧
      ∀ x a w₁, value = some x → ¬Evaluates x env w.below (.ok a) w₁) ∨
    ∃ x y a w₁ r u, value = some x ∧ metadata = some y ∧ Evaluates x env w.below (.ok a) w₁ ∧
      Evaluates y env (w₁.bindVar v.cell a) r u ∧ w'.vars = u.vars := by
  obtain ⟨n, h⟩ := h
  cases n with
  | zero => cases h
  | succ n =>
    obtain ⟨e' | a, h, he⟩ := Run.mapError_eq_some h
    case ok => cases he
    rcases Run.nested_cases h with ⟨hlimit, -, rfl⟩ | ⟨-, u, h, hw'⟩
    · -- one level deeper the limit stops every part at once
      have hpart (x : Expr) := evaluates_of_limit (w := w'.below) (Nat.lt_succ_of_lt hlimit) x env
      refine .inl ⟨w'.below, ?_, rfl, fun x a w₁ _ => (hpart x).not_ok⟩
      cases value.toList ++ metadata.toList with
      | nil => exact .nil _
      | cons x xs => exact .failed (hpart x)
    · have hvars : w'.vars = u.vars := by rw [hw', World.above]
      cases value with
      | none =>
        cases metadata with
        | none => cases h
        | some y =>
          obtain ⟨r, hy⟩ := Expr.annotate_eq_error h
          exact .inl ⟨u, .single ⟨n, hy⟩, hvars, by simp⟩
      | some x =>
        rcases Run.bind_eq_error.1 h with hx | ⟨a, w₁, hx, h⟩
        · have hfailed : Evaluates x env w.below (.error e') u := ⟨n, hx⟩
          refine .inl ⟨u, .failed hfailed, hvars, ?_⟩
          rintro _ a w₁ ⟨⟩
          exact hfailed.not_ok
        · have hbind : v.bind a w₁ = some (.ok (), w₁.bindVar v.cell a) := rfl
          rw [Run.bind_of_ok hbind] at h
          cases metadata with
          | none => cases h
          | some y =>
            obtain ⟨r, hy⟩ := Expr.annotate_eq_error h
            exact .inr ⟨x, y, a, w₁, r, u, rfl, rfl, ⟨n, hx⟩, ⟨n, hy⟩, hvars⟩

/-- Once the value has returned, the metadata is evaluated with the value in place. -/
theorem Evaluates.define_error_of_ok {w₁ : World}
    (h : Evaluates (.define v (some x) (some y) p) env w (.error e) w')
    (hx : Evaluates x env w.below (.ok a) w₁) :
    ∃ r u, Evaluates y env (w₁.bindVar v.cell a) r u ∧ w'.varCell v.cell = u.varCell v.cell := by
  rcases h.define_error with ⟨u, -, -, hnot⟩ | ⟨_, _, a', w₁', r, u, ⟨⟩, ⟨⟩, hx', hy, hvars⟩
  · exact absurd hx (hnot x a w₁ rfl)
  · obtain ⟨⟨⟩, rfl⟩ := hx.unique hx'
    exact ⟨r, u, hy, by rw [World.varCell, World.varCell, hvars]⟩

/-! ## When the failure is atomic -/

theorem EvaluatesInTurn.pair_iff {w₁ : World} (hx : Evaluates x env w (.ok a) w₁) :
    EvaluatesInTurn env [x, y] w u ↔ ∃ r, Evaluates y env w₁ r u := by
  constructor
  · intro h
    cases h with
    | failed hfailed => exact absurd hx hfailed.not_ok
    | next hx' hrest =>
      obtain ⟨-, rfl⟩ := hx.unique hx'
      cases hrest with
      | failed hy => exact ⟨_, hy⟩
      | next hy hnil =>
        cases hnil
        exact ⟨_, hy⟩
  · rintro ⟨r, hy⟩
    exact .next hx (.single hy)

theorem atomicFailure_iff (h : Evaluates (.define v value metadata p) env w (.error e) w') :
    AtomicFailure v value metadata env w w' ↔
      ∀ x y a w₁, value = some x → metadata = some y → Evaluates x env w.below (.ok a) w₁ →
        ∃ r u, Evaluates y env w₁ r u ∧ u.varCell v.cell = w'.varCell v.cell := by
  constructor
  · rintro ⟨u, hparts, hcell⟩ x y a w₁ rfl rfl hx
    obtain ⟨r, hy⟩ := (EvaluatesInTurn.pair_iff hx).1 hparts
    exact ⟨r, u, hy, hcell⟩
  · intro hsame
    rcases h.define_error with ⟨u, hparts, hvars, -⟩ | ⟨x, y, a, w₁, -, -, rfl, rfl, hx, -, -⟩
    · exact ⟨u, hparts, by rw [World.varCell, World.varCell, hvars]⟩
    · obtain ⟨r, u, hy, hcell⟩ := hsame x y a w₁ rfl rfl hx
      exact ⟨u, (EvaluatesInTurn.pair_iff hx).2 ⟨r, hy⟩, hcell⟩

theorem World.varCell_eq {cell : VarRef} {c : VarCell} (hc : w.vars.get? cell = some c) :
    w.varCell cell = c := by
  rw [varCell, hc, Option.getD_some]

theorem World.varCell_bindVar {cell : VarRef} {c : VarCell} (hc : w.vars.get? cell = some c)
    (a : Value) : (w.bindVar cell a).varCell cell = { c with value := some a } := by
  apply varCell_eq
  rw [bindVar, varCell_eq hc, Heap.get?_set, if_pos ⟨rfl, Heap.lt_size_of_get? hc⟩]

/-- To bind what is bound already changes nothing. -/
theorem World.bindVar_of_value {cell : VarRef} {c : VarCell} (hc : w.vars.get? cell = some c)
    (ha : c.value = some a) : w.bindVar cell a = w := by
  have hvars : w.vars.set cell { c with value := some a } = w.vars := by
    apply Heap.ext_get?
    intro i
    rw [Heap.get?_set, ← ha]
    split
    · next hi => rw [← hi.1, hc]
    · rfl
  rw [bindVar, varCell_eq hc, hvars]

/-- If the metadata spares the var, a failure leaves the new value next to the old metadata. -/
theorem Evaluates.torn {w₁ : World} {c : VarCell}
    (h : Evaluates (.define v (some x) (some y) p) env w (.error e) w')
    (hx : Evaluates x env w.below (.ok a) w₁) (hc : w₁.vars.get? v.cell = some c)
    (hspares : y.Spares env v.cell (w₁.bindVar v.cell a)) :
    w'.varCell v.cell = { c with value := some a } := by
  obtain ⟨r, u, hy, hcell⟩ := h.define_error_of_ok hx
  rw [hcell, hspares r u hy, World.varCell_bindVar hc]

theorem atomicFailure_iff_of_spares {w₁ : World} {c : VarCell}
    (h : Evaluates (.define v (some x) (some y) p) env w (.error e) w')
    (hx : Evaluates x env w.below (.ok a) w₁) (hc : w₁.vars.get? v.cell = some c)
    (hbefore : y.Spares env v.cell w₁) (hafter : y.Spares env v.cell (w₁.bindVar v.cell a)) :
    AtomicFailure v (some x) (some y) env w w' ↔ c.value = some a := by
  constructor
  · rintro ⟨u, hparts, hcell⟩
    obtain ⟨r, hy⟩ := (EvaluatesInTurn.pair_iff hx).1 hparts
    rw [h.torn hx hc hafter, hbefore r u hy, World.varCell_eq hc] at hcell
    exact congrArg VarCell.value hcell
  · intro ha
    obtain ⟨r, u, hy, hcell⟩ := h.define_error_of_ok hx
    rw [World.bindVar_of_value hc ha] at hy
    exact ⟨u, (EvaluatesInTurn.pair_iff hx).2 ⟨r, hy⟩, hcell.symm⟩

/-- A failed definition is atomic just if its value did not return, or the metadata, evaluated
without the new value in place, leaves the cell of the var in the same state. Where the metadata does
not touch the var, the failure leaves the new value next to the old metadata, and that is atomic only
if the var had this value before. -/
theorem failed_define_atomic_iff (h : Evaluates (.define v value metadata p) env w (.error e) w') :
    (AtomicFailure v value metadata env w w' ↔
      ∀ x y a w₁, value = some x → metadata = some y → Evaluates x env w.below (.ok a) w₁ →
        ∃ r u, Evaluates y env w₁ r u ∧ u.varCell v.cell = w'.varCell v.cell) ∧
    ∀ x y a w₁ c, value = some x → metadata = some y → Evaluates x env w.below (.ok a) w₁ →
      w₁.vars.get? v.cell = some c →
      y.Spares env v.cell w₁ → y.Spares env v.cell (w₁.bindVar v.cell a) →
      w'.varCell v.cell = { c with value := some a } ∧
      (AtomicFailure v value metadata env w w' ↔ c.value = some a) := by
  refine ⟨atomicFailure_iff h, ?_⟩
  rintro x y a w₁ c rfl rfl hx hc hbefore hafter
  exact ⟨h.torn hx hc hafter, atomicFailure_iff_of_spares h hx hc hbefore hafter⟩

theorem Expr.literal_spares (a : Value) (p : Position) (env : FrameRef) (cell : VarRef)
    (w : World) : (literal a p).Spares env cell w := by
  rintro r u ⟨n, h⟩
  cases n with
  | zero => cases h
  | succ n =>
    obtain ⟨t, h, -⟩ := Run.mapError_eq_some h
    rcases Run.nested_cases h with ⟨-, -, rfl⟩ | ⟨-, v, hbody, rfl⟩
    · rfl
    · cases hbody
      rfl

end

/-- A var that holds 7 is defined as 7 again, with metadata that is no map. -/
theorem failed_define_atomic_iff_same :
    let p : Position := ⟨1, 1⟩
    let v : Var := ⟨some "user", ⟨none, "x"⟩, 0⟩
    let w : World := { vars := ⟨#[{ value := some (.int 7) }]⟩ }
    let x : Expr := .literal (.int 7) p
    let y : Expr := .literal (.int 2) p
    let e : Error := .located p (.typeMismatch "ArrayMap" "Int" (some "def"))
    Evaluates (.define v (some x) (some y) p) 0 w (.error e) w ∧
      AtomicFailure v (some x) (some y) 0 w w := by
  intro p v w x y e
  have h : Evaluates (.define v (some x) (some y) p) 0 w (.error e) w := ⟨3, rfl⟩
  have hx : Evaluates x 0 w.below (.ok (.int 7)) w.below := ⟨1, rfl⟩
  have hspares (w : World) : y.Spares 0 v.cell w := Expr.literal_spares _ _ _ _ _
  obtain ⟨-, hatomic⟩ := (failed_define_atomic_iff h).2 x y (.int 7) w.below
    { value := some (.int 7) } rfl rfl hx rfl (hspares _) (hspares _)
  exact ⟨h, hatomic.2 rfl⟩

/-- A var that holds 7 is defined as 1 with metadata that is no map: the definition fails and the var
holds 1. -/
theorem failed_define_rebinds :
    let p : Position := ⟨1, 1⟩
    let v : Var := ⟨some "user", ⟨none, "x"⟩, 0⟩
    let w : World := { vars := ⟨#[{ value := some (.int 7) }]⟩ }
    let x : Expr := .literal (.int 1) p
    let y : Expr := .literal (.int 2) p
    let e : Error := .located p (.typeMismatch "ArrayMap" "Int" (some "def"))
    ∃ w', Evaluates (.define v (some x) (some y) p) 0 w (.error e) w' ∧
      w'.varCell v.cell = { value := some (.int 1) } ∧
      ¬AtomicFailure v (some x) (some y) 0 w w' := by
  intro p v w x y e
  have h : Evaluates (.define v (some x) (some y) p) 0 w (.error e) (w.bindVar 0 (.int 1)) :=
    ⟨3, rfl⟩
  have hx : Evaluates x 0 w.below (.ok (.int 1)) w.below := ⟨1, rfl⟩
  have hspares (w : World) : y.Spares 0 v.cell w := Expr.literal_spares _ _ _ _ _
  have hcell : w.below.vars.get? v.cell = some { value := some (.int 7) } := rfl
  have hatomic := atomicFailure_iff_of_spares h hx hcell (hspares _) (hspares _)
  refine ⟨_, h, rfl, ?_⟩
  rw [hatomic]
  simp [Value.int]

end LispKernel
