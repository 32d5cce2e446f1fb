import LispKernel.Proofs.Refinement.Walk

/-!
# Failed realizations in comparisons

A run that may realize lazy cells meets a failure if it depends on the outcome of a realization that
failed so: it ends, but it would not if such realizations had no outcome. A run is honest if it
meets a failure exactly when it ends with it. The strict comparison goes through two values as the
comparison does and stops at the first failure; it is honest.
-/
namespace LispKernel

/-- Realizations that fail with the error have no outcome. -/
def Force.barring (e : Error) (force : Force) : Force := fun cell w =>
  match force cell w with
  | some (.error e', w') => if e' = e then none else some (.error e', w')
  | r => r

variable {α β : Type} {w w' : World} {force : Force}

namespace Run

theorem bind_of_error {x : Run α} {f : α → Run β} {e : Error} (h : x w = some (.error e, w')) :
    (x >>= f) w = some (.error e, w') := bind_eq_error.2 (.inl h)

theorem bind_of_none {x : Run α} {f : α → Run β} (h : x w = none) : (x >>= f) w = none := by
  show Run.bind x f w = none
  rw [Run.bind, h]

/-- The run ends, but only because realizations that fail with the error do. -/
def Meets (x : Force → Run α) (force : Force) (e : Error) (w : World) : Prop :=
  (∃ r w', x force w = some (r, w')) ∧ x (force.barring e) w = none

/-- Every failure that the run meets is what it ends with. -/
def Reports (x : Force → Run α) (force : Force) (w : World) : Prop :=
  ∀ e, Meets x force e w → ∃ w', x force w = some (.error e, w')

/-! ## Runs that realize and go on -/

/-- A relation between ways to run that is respected where one thing is done after another and no
failure is looked at. -/
structure Chaining (R : (α : Type) → (Force → Run α) → (Force → Run α) → Prop) : Prop where
  exhausted {α : Type} : R α (fun _ => Run.exhausted) (fun _ => Run.exhausted)
  pure {α : Type} (a : α) : R α (fun _ => Pure.pure a) (fun _ => Pure.pure a)
  freshStorage : R Storage (fun _ => Run.freshStorage) (fun _ => Run.freshStorage)
  realize (cell : LazyRef) : R Seq (fun φ => φ cell) (fun φ => φ cell)
  bind {α β : Type} {x y : Force → Run α} {f g : α → Force → Run β} :
    R α x y → (∀ a, R β (f a) (g a)) →
      R β (fun φ => x φ >>= fun a => f a φ) (fun φ => y φ >>= fun a => g a φ)

end Run

section Chains

open Run (Chaining)

variable {R : (α : Type) → (Force → Run α) → (Force → Run α) → Prop} (hR : Chaining R)

include hR

theorem Front.first_chain (f : Front) : R _ (fun _ => f.first) (fun _ => f.first) := by
  cases f with
  | done => exact hR.pure _
  | item x rest => exact hR.pure _
  | entry key value rest =>
    exact hR.bind (hR.bind hR.freshStorage fun _ => hR.pure _) fun _ => hR.pure _

namespace Seq

theorem front_chain (n : Nat) (s : Seq) : R _ (fun φ => s.front φ n) (fun φ => s.front φ n) := by
  induction n generalizing s with
  | zero => exact hR.exhausted
  | succ n ih =>
    cases s with
    | empty info => exact hR.pure _
    | cons cell x rest info => exact hR.pure _
    | view kind storage slice info => exact hR.pure _
    | entries storage slice info => exact hR.pure _
    | «lazy» cell info => exact hR.bind (hR.realize cell) ih

theorem next_chain (n : Nat) (s : Seq) : R _ (fun φ => s.next φ n) (fun φ => s.next φ n) := by
  have hfront := front_chain hR n s
  simp only [next, isEmpty_eq, first_eq, rest_eq]
  refine hR.bind (hR.bind hfront fun f => hR.pure f.isDone) fun b => ?_
  cases b with
  | true => exact hR.pure _
  | false =>
    refine hR.bind (hR.bind hfront fun f => f.first_chain hR) fun x => ?_
    exact hR.bind (hR.bind hfront fun f => hR.pure f.rest) fun _ => hR.pure _

end Seq

variable {eq eq' : Force → Comparison}
  (heq : ∀ a b, R _ (fun φ => eq φ a b) (fun φ => eq' φ a b))

theorem ElemSet.anyM_chain {p q : Force → Value → Run Bool}
    (h : ∀ x, R _ (fun φ => p φ x) (fun φ => q φ x)) (items : List Value) :
    R _ (fun φ => anyM (p φ) items) (fun φ => anyM (q φ) items) := by
  induction items with
  | nil => exact hR.pure _
  | cons x items ih =>
    refine hR.bind (h x) fun found => ?_
    cases found
    · exact ih
    · exact hR.pure _

include heq

theorem Vec.equal_chain (v other : Vec) :
    R _ (fun φ => v.equal (eq φ) other) (fun φ => v.equal (eq' φ) other) := by
  have hall (xs ys : List Value) :
      R _ (fun φ => (eq φ).all xs ys) (fun φ => (eq' φ).all xs ys) := by
    induction xs generalizing ys with
    | nil => exact hR.pure _
    | cons x xs ih =>
      cases ys with
      | nil => exact hR.pure _
      | cons y ys =>
        refine hR.bind (heq x y) fun same => ?_
        cases same
        · exact hR.pure _
        · exact ih ys
  unfold Vec.equal
  split
  · exact hR.pure _
  · exact hall _ _

theorem ElemSet.equal_chain (s other : ElemSet) :
    R _ (fun φ => s.equal (eq φ) other) (fun φ => s.equal (eq' φ) other) := by
  have hwithin (items : List Value) :
      R _ (fun φ => within (eq φ) other items) (fun φ => within (eq' φ) other items) := by
    induction items with
    | nil => exact hR.pure _
    | cons x items ih =>
      refine hR.bind (ElemSet.anyM_chain hR (heq x) other.items) fun found => ?_
      cases found
      · exact hR.pure _
      · exact ih
  unfold ElemSet.equal
  split
  · exact hR.pure _
  · exact hwithin _

theorem Dict.tryGet_chain (m : Dict) (key : Value) :
    R _ (fun φ => m.tryGet (eq φ) key) (fun φ => m.tryGet (eq' φ) key) := by
  have hindex (entries : List (Value × Value)) :
      R _ (fun φ => indexOf (eq φ) key entries) (fun φ => indexOf (eq' φ) key entries) := by
    induction entries with
    | nil => exact hR.pure _
    | cons entry entries ih =>
      refine hR.bind (heq entry.1 key) fun found => ?_
      cases found
      · exact hR.bind ih fun _ => hR.pure _
      · exact hR.pure _
  exact hR.bind (hindex m.entries) fun _ => hR.pure _

end Chains

/-! ## Honest runs -/

namespace Run

/-- Without the outcome of realizations that fail in some way the run ends as before, unless it
ended with this failure. -/
def Honest (force : Force) (x : Force → Run α) : Prop :=
  ∀ w r w', x force w = some (r, w') → ∀ e,
    (r = .error e → x (force.barring e) w = none) ∧
    (r ≠ .error e → x (force.barring e) w = some (r, w'))

theorem Honest.meets_iff {x : Force → Run α} (hx : Honest force x) {e : Error} :
    Meets x force e w ↔ ∃ w', x force w = some (.error e, w') := by
  constructor
  · rintro ⟨⟨r, w', hrun⟩, hnone⟩
    by_cases hr : r = .error e
    · exact ⟨w', hr ▸ hrun⟩
    · rw [(hx w r w' hrun e).2 hr] at hnone
      cases hnone
  · rintro ⟨w', hrun⟩
    exact ⟨⟨_, _, hrun⟩, (hx w _ w' hrun e).1 rfl⟩

theorem Honest.of_reading {x : Run α} (h : ∀ w, ∃ a w', x w = some (.ok a, w')) :
    Honest force fun _ => x := by
  intro w r w' hrun e
  obtain ⟨a, v, hok⟩ := h w
  cases hok.symm.trans hrun
  exact ⟨fun h => (nomatch h), fun _ => hrun⟩

theorem honest_realize (cell : LazyRef) : Honest force fun φ => φ cell := by
  intro w r w' hrun e
  cases r with
  | ok s => exact ⟨fun h => (nomatch h), fun _ => by simp [Force.barring, hrun]⟩
  | error e' => simp [Force.barring, hrun]

theorem Honest.bind {x : Force → Run α} {f : α → Force → Run β} (hx : Honest force x)
    (hf : ∀ a, Honest force (f a)) : Honest force fun φ => x φ >>= fun a => f a φ := by
  intro w r w' hrun e
  rcases hout : x force w with _ | ⟨e' | a, v⟩
  · cases (bind_of_none hout).symm.trans hrun
  · cases (bind_of_error hout).symm.trans hrun
    refine ⟨fun h => ?_, fun h => ?_⟩
    · exact bind_of_none ((hx _ _ _ hout e).1 (by simpa using h))
    · exact bind_of_error ((hx _ _ _ hout e).2 (by simpa using h))
  · have hbarred : x (force.barring e) w = some (.ok a, v) := (hx _ _ _ hout e).2 (by simp)
    have hrest : f a force v = some (r, w') := (bind_of_ok hout).symm.trans hrun
    obtain ⟨hend, hkeep⟩ := hf a v r w' hrest e
    have hbind := bind_of_ok (f := fun a => f a (force.barring e)) hbarred
    exact ⟨fun h => hbind.trans (hend h), fun h => hbind.trans (hkeep h)⟩

theorem honest_chaining (force : Force) : Chaining fun _ x _ => Honest force x where
  exhausted _ _ _ hrun := nomatch hrun
  pure a := .of_reading fun w => ⟨a, w, rfl⟩
  freshStorage := .of_reading fun _ => ⟨_, _, rfl⟩
  realize := honest_realize
  bind := Honest.bind

end Run

/-! ## The strict comparison -/

/-- As the comparison of sequences, but a failure on either side is the outcome. -/
def Seq.equalStrictly (force : Force) (eq : Comparison) : Nat → Seq → Seq → Run Bool
  | 0, _, _ => .exhausted
  | n + 1, s, t => do
    let a ← s.next force n
    let b ← t.next force n
    match a, b with
    | none, none => return true
    | some (x, s), some (y, t) => if ← eq x y then equalStrictly force eq n s t else return false
    | _, _ => return false

namespace Dict

/-- Keys are looked up by comparisons that may fail. -/
def withinStrictly (eq : Comparison) (other : Dict) : List (Value × Value) → Run Bool
  | [] => return true
  | (key, value) :: rest => do
    match ← other.tryGet eq key with
    | some found => if ← eq found value then withinStrictly eq other rest else return false
    | none => return false

def equalStrictly (eq : Comparison) (m other : Dict) : Run Bool :=
  if m.same other then return true
  else if m.count ≠ other.count then return false
  else withinStrictly eq other m.entries

end Dict

/-- The comparison that stops at the first failure. -/
def Value.equalsStrictly (force : Force) : Nat → Value → Value → Run Bool
  | 0, _, _ => .exhausted
  | n + 1, a, b =>
    match a, b with
    | atom a, atom b => return a.equals b
    | vector v, vector other => v.equal (equalsStrictly force n) other
    | vector v, seq t => v.seq.equalStrictly force (equalsStrictly force n) n t
    | seq s, seq t =>
      if s.same t then return true else s.equalStrictly force (equalsStrictly force n) n t
    | seq s, vector v => s.equalStrictly force (equalsStrictly force n) n v.seq
    | map m, map other => m.equalStrictly (equalsStrictly force n) other
    | set s, set other => s.equal (equalsStrictly force n) other
    | _, _ => return false

section Strict

open Run (Chaining)

variable {R : (α : Type) → (Force → Run α) → (Force → Run α) → Prop} (hR : Chaining R)

include hR

section

variable {eq : Force → Comparison} (heq : ∀ a b, R _ (fun φ => eq φ a b) (fun φ => eq φ a b))

include heq

theorem Seq.equalStrictly_chain (n : Nat) (s t : Seq) :
    R _ (fun φ => s.equalStrictly φ (eq φ) n t) (fun φ => s.equalStrictly φ (eq φ) n t) := by
  induction n generalizing s t with
  | zero => exact hR.exhausted
  | succ n ih =>
    refine hR.bind (next_chain hR n s) fun a => hR.bind (next_chain hR n t) fun b => ?_
    rcases a with _ | ⟨x, s'⟩ <;> rcases b with _ | ⟨y, t'⟩
    case some.some =>
      refine hR.bind (heq x y) fun same => ?_
      cases same
      · exact hR.pure _
      · exact ih s' t'
    all_goals exact hR.pure _

theorem Dict.equalStrictly_chain (m other : Dict) :
    R _ (fun φ => m.equalStrictly (eq φ) other) (fun φ => m.equalStrictly (eq φ) other) := by
  have hwithin (entries : List (Value × Value)) :
      R _ (fun φ => withinStrictly (eq φ) other entries)
        (fun φ => withinStrictly (eq φ) other entries) := by
    induction entries with
    | nil => exact hR.pure _
    | cons entry entries ih =>
      refine hR.bind (tryGet_chain hR heq other entry.1) fun found => ?_
      rcases found with _ | found
      · exact hR.pure _
      · refine hR.bind (heq found entry.2) fun same => ?_
        cases same
        · exact hR.pure _
        · exact ih
  unfold Dict.equalStrictly
  split
  · exact hR.pure _
  · split
    · exact hR.pure _
    · exact hwithin _

end

theorem Value.equalsStrictly_chain (n : Nat) (a b : Value) :
    R _ (fun φ => a.equalsStrictly φ n b) (fun φ => a.equalsStrictly φ n b) := by
  induction n generalizing a b with
  | zero => exact hR.exhausted
  | succ n ih =>
    cases a <;> cases b
    case atom.atom a b => exact hR.pure _
    case vector.vector v other => exact v.equal_chain hR ih other
    case vector.seq v t => exact Seq.equalStrictly_chain hR ih n _ t
    case seq.vector s v => exact Seq.equalStrictly_chain hR ih n s _
    case seq.seq s t =>
      simp only [equalsStrictly]
      split
      · exact hR.pure _
      · exact Seq.equalStrictly_chain hR ih n s t
    case map.map m other => exact m.equalStrictly_chain hR ih other
    case set.set s other => exact s.equal_chain hR ih other
    all_goals exact hR.pure _

end Strict

theorem Value.equalsStrictly_honest (force : Force) (n : Nat) (a b : Value) :
    Run.Honest force fun φ => a.equalsStrictly φ n b :=
  equalsStrictly_chain (Run.honest_chaining force) n a b

end LispKernel
