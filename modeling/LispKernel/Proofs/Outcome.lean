import LispKernel.Proofs.Refinement.Run

/-!
# Runs that come to a value

A run returns if it ends with a value in every world and does nothing but take storage. A run with
fuel settles if it returns from some amount of fuel on and has no other outcome before. Both can be
said of the worlds of an invariant, where a run may do whatever keeps the invariant. From one world
a run with fuel comes to the outcome that it has from some amount on. Of a run that may fail it is
said what holds of its value or of its error if it ends.
-/
namespace LispKernel

/-- The worlds that differ from a given one in the number of the next storage alone. -/
def World.Storing (u w : World) : Prop := ∃ k, w = { u with storages := k }

theorem World.Storing.refl (w : World) : Storing w w := ⟨w.storages, rfl⟩

theorem World.Storing.elastic (u : World) : Elastic (Storing u) := by
  rintro w ⟨k, rfl⟩
  exact ⟨k + 1, rfl⟩

namespace World

variable {u v w : World}

/-- More storage is taken than in a given world, and nothing else is different. -/
def Ahead (u w : World) : Prop := ∃ k, w = { u with storages := u.storages + k }

theorem Ahead.refl (w : World) : Ahead w w := ⟨0, rfl⟩

theorem Ahead.trans (h : Ahead u v) (h' : Ahead v w) : Ahead u w := by
  obtain ⟨k, rfl⟩ := h
  obtain ⟨l, rfl⟩ := h'
  exact ⟨k + l, by rw [Nat.add_assoc]⟩

theorem Ahead.elastic (u : World) : Elastic (Ahead u) := fun _ h => h.trans ⟨1, rfl⟩

theorem Ahead.printLength_eq (h : Ahead u w) : w.printLength = u.printLength := by
  obtain ⟨k, rfl⟩ := h
  rfl

end World

namespace Run

variable {α β : Type} {P Q : α → Prop}

/-- In every world the run ends with a value of which `P` holds, and nothing changes but the number
of the next storage. -/
def Returns (x : Run α) (P : α → Prop) : Prop :=
  ∀ w, ∃ a k, x w = some (.ok a, { w with storages := k }) ∧ P a

/-- In every world of the invariant the run ends with a value of which `P` holds, and the invariant
holds afterwards. -/
def ReturnsIn (I : World → Prop) (x : Run α) (P : α → Prop) : Prop :=
  ∀ w, I w → ∃ a w', x w = some (.ok a, w') ∧ I w' ∧ P a

/-- The same error, or values that are related. -/
def Alike (R : α → β → Prop) : Except Error α → Except Error β → Prop
  | .ok a, .ok b => R a b
  | .error e, .error e' => e = e'
  | _, _ => False

theorem Alike.mono {R S : α → β → Prop} (h : ∀ a b, R a b → S a b) {r : Except Error α}
    {t : Except Error β} (hr : Alike R r t) : Alike S r t := by
  cases r <;> cases t
  case ok.ok a b => exact h a b hr
  all_goals exact hr

theorem Alike.trans {γ : Type} {R : α → β → Prop} {S : β → γ → Prop} {T : α → γ → Prop}
    {r : Except Error α} {t : Except Error β} {u : Except Error γ} (h : Alike R r t)
    (h' : Alike S t u) (hT : ∀ a b c, R a b → S b c → T a c) : Alike T r u := by
  cases r <;> cases t <;> cases u <;> simp only [Alike] at h h'
  case ok.ok.ok a b c => exact hT a b c h h'
  case error.error.error => exact h.trans h'

theorem alike_ok {R : α → β → Prop} {r : Except Error α} {b : β} :
    Alike R r (.ok b) ↔ ∃ a, r = .ok a ∧ R a b := by
  cases r <;> simp [Alike]

theorem alike_error {R : α → β → Prop} {r : Except Error α} {e : Error} :
    Alike R r (.error e) ↔ r = .error e := by
  cases r <;> simp [Alike]

/-- With enough fuel the run returns, and with any fuel it ends with a value of which `P` holds if
it ends at all. -/
structure Settles (x : Nat → Run α) (P : α → Prop) : Prop where
  returns : ∃ N, ∀ n ≥ N, (x n).Returns P
  outcome {n : Nat} {w w' : World} {r : Except Error α} :
    x n w = some (r, w') → ∃ a, r = .ok a ∧ P a

/-- In the worlds of an invariant the run returns with enough fuel, and it has no other outcome with
any fuel. -/
structure SettlesIn (I : World → Prop) (x : Nat → Run α) (P : α → Prop) : Prop where
  returns : ∃ N, ∀ n ≥ N, (x n).ReturnsIn I P
  outcome {n : Nat} {w w' : World} {r : Except Error α} :
    I w → x n w = some (r, w') → I w' ∧ ∃ a, r = .ok a ∧ P a

namespace ReturnsIn

variable {I : World → Prop} {x : Run α}

theorem pure {a : α} (h : P a) : ReturnsIn I (Pure.pure a) P := fun w hw => ⟨a, w, rfl, hw, h⟩

theorem mono (hx : x.ReturnsIn I P) (h : ∀ a, P a → Q a) : x.ReturnsIn I Q := by
  intro w hw
  obtain ⟨a, w', hrun, hw', ha⟩ := hx w hw
  exact ⟨a, w', hrun, hw', h a ha⟩

theorem bind {f : α → Run β} {Q : β → Prop} (hx : x.ReturnsIn I P)
    (hf : ∀ a, P a → (f a).ReturnsIn I Q) : ReturnsIn I (x >>= f) Q := by
  intro w hw
  obtain ⟨a, v, hrun, hv, ha⟩ := hx w hw
  obtain ⟨b, w', hrun', hw', hb⟩ := hf a ha v hv
  exact ⟨b, w', bind_eq_ok.2 ⟨a, v, hrun, hrun'⟩, hw', hb⟩

theorem foldlM {f : β → α → Run β} {g : β → α → β} {l : List α}
    (h : ∀ b, ∀ x ∈ l, (f b x).ReturnsIn I (· = g b x)) (b : β) :
    (l.foldlM f b).ReturnsIn I (· = l.foldl g b) := by
  induction l generalizing b with
  | nil => exact .pure rfl
  | cons x l ih =>
    rw [List.foldlM_cons]
    exact (h b x (by simp)).bind fun b' hb => hb ▸ ih (fun b y hy => h b y (by simp [hy])) _

theorem gets {f : World → α} (h : ∀ w, I w → P (f w)) : ReturnsIn I (Run.gets f) P :=
  fun w hw => ⟨f w, w, rfl, hw, h w hw⟩

theorem reading (f : World → α) : ReturnsIn I (Run.gets f) fun _ => True := gets fun _ _ => trivial

/-- A run that always succeeds, with a change that keeps the invariant. -/
theorem change {f : World → α} {g : World → World} (h : ∀ w, I w → I (g w) ∧ P (f w)) :
    ReturnsIn I (fun w => some (.ok (f w), g w)) P :=
  fun w hw => ⟨f w, g w, rfl, h w hw⟩

theorem freshStorage (hI : Elastic I) : ReturnsIn I Run.freshStorage fun _ => True :=
  fun w hw => ⟨w.storages, _, rfl, hI w hw, trivial⟩

theorem attempt (hx : x.ReturnsIn I P) : x.attempt.ReturnsIn I fun r => ∃ a, r = .ok a ∧ P a := by
  intro w hw
  obtain ⟨a, w', hrun, hw', ha⟩ := hx w hw
  exact ⟨.ok a, w', by rw [Run.attempt, hrun], hw', a, rfl, ha⟩

/-- A run that may fail after a part that does not. -/
theorem attempt_bind {f : α → Run β} {Q : Except Error β → Prop} (hx : x.ReturnsIn I P)
    (hf : ∀ a, P a → (f a).attempt.ReturnsIn I Q) : (x >>= f).attempt.ReturnsIn I Q := by
  intro w hw
  obtain ⟨a, v, hrun, hv, ha⟩ := hx w hw
  rw [Run.attempt, bind_of_ok hrun]
  exact hf a ha v hv

theorem lenient {x : Run Bool} {P : Bool → Prop} (hx : x.ReturnsIn I P) :
    x.lenient.ReturnsIn I P := by
  intro w hw
  obtain ⟨a, w', hrun, hw', ha⟩ := hx w hw
  exact ⟨a, w', by rw [Run.lenient, hrun], hw', ha⟩

/-- A run that returns has no other outcome. -/
theorem outcome (hx : x.ReturnsIn I P) {w w' : World} {r : Except Error α} (hw : I w)
    (h : x w = some (r, w')) : I w' ∧ ∃ a, r = .ok a ∧ P a := by
  obtain ⟨a, v, hrun, hv, ha⟩ := hx w hw
  rw [hrun] at h
  cases h
  exact ⟨hv, a, rfl, ha⟩

end ReturnsIn

namespace Returns

variable {x : Run α}

/-- To return is to return whatever the world is, with storage taken at most. -/
theorem iff_returnsIn : x.Returns P ↔ ∀ u, x.ReturnsIn (World.Storing u) P := by
  constructor
  · rintro h u w ⟨k, rfl⟩
    obtain ⟨a, l, hrun, ha⟩ := h { u with storages := k }
    exact ⟨a, _, hrun, ⟨l, rfl⟩, ha⟩
  · intro h w
    obtain ⟨a, _, hrun, ⟨k, rfl⟩, ha⟩ := h w w (.refl w)
    exact ⟨a, k, hrun, ha⟩

theorem pure {a : α} (h : P a) : Returns (Pure.pure a) P := iff_returnsIn.2 fun _ => .pure h

theorem bind {f : α → Run β} {Q : β → Prop} (hx : x.Returns P)
    (hf : ∀ a, P a → (f a).Returns Q) : Returns (x >>= f) Q :=
  iff_returnsIn.2 fun u => (iff_returnsIn.1 hx u).bind fun a ha => iff_returnsIn.1 (hf a ha) u

theorem mono (hx : x.Returns P) (h : ∀ a, P a → Q a) : x.Returns Q :=
  iff_returnsIn.2 fun u => (iff_returnsIn.1 hx u).mono h

theorem freshStorage : Returns Run.freshStorage fun _ => True :=
  iff_returnsIn.2 fun u => .freshStorage (.elastic u)

end Returns

/-- If the run ends with a value, `P` holds of it. -/
def Yields (x : Run α) (P : α → Prop) : Prop :=
  ∀ w a w', x w = some (.ok a, w') → P a

namespace Yields

variable {x : Run α}

theorem pure {a : α} (h : P a) : Yields (Pure.pure a) P := by
  intro w b w' hb
  cases hb
  exact h

theorem of_ok (hx : x.Yields P) {w w' : World} {a : α} (h : x w = some (.ok a, w')) : P a :=
  hx w a w' h

theorem trivial (x : Run α) : x.Yields fun _ => True := fun _ _ _ _ => True.intro

theorem mono (hx : x.Yields P) (h : ∀ a, P a → Q a) : x.Yields Q :=
  fun _ a _ ha => h a (hx.of_ok ha)

theorem bind {f : α → Run β} {Q : β → Prop} (hx : x.Yields P)
    (hf : ∀ a, P a → (f a).Yields Q) : Yields (x >>= f) Q := by
  intro w b w' hb
  obtain ⟨a, v, ha, hb⟩ := bind_eq_ok.1 hb
  exact (hf a (hx.of_ok ha)).of_ok hb

end Yields

/-- What a run comes to with any fuel is known from what it returns with much fuel, where more fuel
never changes an outcome. -/
theorem ReturnsIn.outcome_of_le {I : World → Prop} {x : Nat → Run α} {N n : Nat}
    (hx : ∀ {n m}, n ≤ m → Refines (fun _ _ => True) (x n) (x m))
    (h : ∀ n ≥ N, (x n).ReturnsIn I P) {w w' : World} {r : Except Error α} (hw : I w)
    (hn : x n w = some (r, w')) : I w' ∧ ∃ a, r = .ok a ∧ P a :=
  (h (max n N) (Nat.le_max_right n N)).outcome hw (hx (Nat.le_max_left n N) w r w' hn).1

/-- The run comes to the result with enough fuel. -/
def ComesTo (x : Nat → Run α) (w : World) (r : Except Error α) (w' : World) : Prop :=
  ∃ N, ∀ n ≥ N, x n w = some (r, w')

namespace ComesTo

variable {x : Nat → Run α} {w v w' : World} {r t : Except Error α} {N : Nat}

theorem of_succ (h : ∀ n ≥ N, x (n + 1) w = some (r, w')) : ComesTo x w r w' := by
  refine ⟨N + 1, fun n hn => ?_⟩
  obtain ⟨m, rfl⟩ : ∃ m, n = m + 1 := ⟨n - 1, by omega⟩
  exact h m (by omega)

theorem same (h : ComesTo x w r w') (h' : ComesTo x w t v) : r = t ∧ w' = v := by
  obtain ⟨N, hN⟩ := h
  obtain ⟨M, hM⟩ := h'
  have heq := (hN (max N M) (by omega)).symm.trans (hM (max N M) (by omega))
  exact Prod.ext_iff.1 (Option.some.inj heq)

theorem unique (h : ComesTo x w r w') (h' : ComesTo x w t v) : r = t := (h.same h').1

theorem pure (a : α) (w : World) : ComesTo (fun _ => Pure.pure a) w (.ok a) w := ⟨0, fun _ _ => rfl⟩

theorem bind {f : Nat → α → Run β} {a : α} {r : Except Error β} (h : ComesTo x w (.ok a) v)
    (h' : ComesTo (f · a) v r w') : ComesTo (fun n => x n >>= f n) w r w' := by
  obtain ⟨N, hN⟩ := h
  obtain ⟨M, hM⟩ := h'
  exact ⟨max N M, fun n hn => (bind_of_ok (hN n (by omega))).trans (hM n (by omega))⟩

/-- Where more fuel never changes an outcome, an outcome with some fuel is the one it comes to. -/
theorem of_refines (hx : ∀ {n m}, n ≤ m → Refines (fun _ _ => True) (x n) (x m))
    (h : x N w = some (r, w')) : ComesTo x w r w' :=
  ⟨N, fun _ hn => (hx hn w r w' h).1⟩

theorem of_returnsIn {I : World → Prop}
    (hx : ∀ {n m}, n ≤ m → Refines (fun _ _ => True) (x n) (x m))
    (h : ∀ n ≥ N, (x n).ReturnsIn I P) (hw : I w) :
    ∃ a w', ComesTo x w (.ok a) w' ∧ I w' ∧ P a := by
  obtain ⟨a, w', hrun, hw', ha⟩ := h N (Nat.le_refl N) w hw
  exact ⟨a, w', of_refines hx hrun, hw', ha⟩

end ComesTo

namespace SettlesIn

variable {I : World → Prop} {x : Nat → Run α}

theorem of_returnsIn (hx : ∀ {n m}, n ≤ m → Refines (fun _ _ => True) (x n) (x m)) {N : Nat}
    (h : ∀ n ≥ N, (x n).ReturnsIn I P) : SettlesIn I x P where
  returns := ⟨N, h⟩
  outcome := ReturnsIn.outcome_of_le hx h

end SettlesIn

namespace Settles

variable {x : Nat → Run α}

/-- Where more fuel never changes an outcome, it is enough to know what much fuel comes to. -/
theorem of_returns (hx : ∀ {n m}, n ≤ m → Refines (fun _ _ => True) (x n) (x m)) {N : Nat}
    (h : ∀ n ≥ N, (x n).Returns P) : Settles x P where
  returns := ⟨N, h⟩
  outcome {n w w' r} hn := by
    have hin (m : Nat) (hm : m ≥ N) := Returns.iff_returnsIn.1 (h m hm) w
    exact (ReturnsIn.outcome_of_le hx hin (.refl w) hn).2

/-- The same, with what is returned known for the worlds that differ in their storage. -/
theorem of_returnsIn (hx : ∀ {n m}, n ≤ m → Refines (fun _ _ => True) (x n) (x m)) {N : Nat}
    (h : ∀ u, ∀ n ≥ N, (x n).ReturnsIn (World.Storing u) P) : Settles x P :=
  of_returns hx fun n hn => Returns.iff_returnsIn.2 fun u => h u n hn

theorem mono (hx : Settles x P) (h : ∀ a, P a → Q a) : Settles x Q where
  returns := hx.returns.imp fun _ hN n hn => (hN n hn).mono h
  outcome hn := (hx.outcome hn).imp fun a ha => ⟨ha.1, h a ha.2⟩

theorem pure {a : α} (h : P a) : Settles (fun _ => Pure.pure a) P where
  returns := ⟨0, fun _ _ => .pure h⟩
  outcome hn := by
    cases hn
    exact ⟨a, rfl, h⟩

/-- A run settles on one value only. -/
theorem unique {a b : α} (ha : Settles x (· = a)) (hb : Settles x (· = b)) : a = b := by
  obtain ⟨N, hN⟩ := ha.returns
  obtain ⟨_, _, hw, rfl⟩ := hN N (Nat.le_refl N) {}
  obtain ⟨_, hr, rfl⟩ := hb.outcome hw
  exact Except.ok.inj hr

end Settles

/-! ## Runs that may fail -/

/-- In the worlds of an invariant, if the run ends then the invariant holds afterwards, and `P`
holds of the value or `E` of the error. -/
def EndsIn (I : World → Prop) (x : Run α) (P : α → Prop) (E : Error → Prop) : Prop :=
  ∀ w r w', I w → x w = some (r, w') → I w' ∧
    match r with
    | .ok a => P a
    | .error e => E e

namespace EndsIn

variable {I : World → Prop} {E F : Error → Prop} {x : Run α}

theorem ofExcept {r : Except Error α} (h : match r with | .ok a => P a | .error e => E e) :
    EndsIn I (Run.ofExcept r) P E := by
  intro w r w' hw hrun
  cases hrun
  exact ⟨hw, h⟩

theorem ofExcept_bind {r : Except Error α} {f : α → Except Error β} {Q : β → Prop}
    (hr : (Run.ofExcept r).EndsIn I P E) (hf : ∀ a, P a → (Run.ofExcept (f a)).EndsIn I Q E) :
    (Run.ofExcept (r >>= f)).EndsIn I Q E := by
  intro w t w' hw hrun
  obtain ⟨-, hr⟩ := hr w r w hw rfl
  cases r with
  | ok a => exact hf a hr w t w' hw hrun
  | error e =>
    cases hrun
    exact ⟨hw, hr⟩

theorem pure {a : α} (h : P a) : EndsIn I (Pure.pure a) P E := ofExcept (r := .ok a) h

theorem fail {e : Error} (h : E e) : EndsIn I (Run.fail e) P E := ofExcept (r := .error e) h

theorem exhausted : EndsIn I Run.exhausted P E := fun _ _ _ _ h => nomatch h

theorem mono (hx : x.EndsIn I P E) (hP : ∀ a, P a → Q a) (hE : ∀ e, E e → F e) :
    x.EndsIn I Q F := by
  intro w r w' hw hrun
  obtain ⟨hw', hr⟩ := hx w r w' hw hrun
  cases r with
  | ok a => exact ⟨hw', hP a hr⟩
  | error e => exact ⟨hw', hE e hr⟩

theorem bind {f : α → Run β} {Q : β → Prop} (hx : x.EndsIn I P E)
    (hf : ∀ a, P a → (f a).EndsIn I Q E) : EndsIn I (x >>= f) Q E := by
  intro w r w' hw hrun
  cases r with
  | ok b =>
    obtain ⟨a, v, ha, hb⟩ := bind_eq_ok.1 hrun
    obtain ⟨hv, hPa⟩ := hx w _ v hw ha
    exact hf a hPa v _ w' hv hb
  | error e =>
    rcases bind_eq_error.1 hrun with he | ⟨a, v, ha, he⟩
    · exact hx w _ w' hw he
    · obtain ⟨hv, hPa⟩ := hx w _ v hw ha
      exact hf a hPa v _ w' hv he

theorem change {f : World → α} {g : World → World} (h : ∀ w, I w → I (g w) ∧ P (f w)) :
    EndsIn I (fun w => some (.ok (f w), g w)) P E := by
  intro w r w' hw hrun
  cases hrun
  exact h w hw

theorem gets {f : World → α} (h : ∀ w, I w → P (f w)) : EndsIn I (Run.gets f) P E :=
  change fun w hw => ⟨hw, h w hw⟩

theorem freshStorage (hI : Elastic I) : EndsIn I Run.freshStorage (fun _ => True) E :=
  change fun w hw => ⟨hI w hw, trivial⟩

theorem lenient {x : Run Bool} (hx : x.EndsIn I (fun _ => True) F) :
    x.lenient.EndsIn I (fun _ => True) E := by
  intro w r w' hw hrun
  unfold Run.lenient at hrun
  rcases hout : x w with _ | ⟨_ | b, v⟩ <;> rw [hout] at hrun <;> cases hrun
  · exact ⟨(hx w _ _ hw hout).1, trivial⟩
  · exact ⟨(hx w _ _ hw hout).1, trivial⟩

theorem attempt (hx : x.EndsIn I P F) : x.attempt.EndsIn I (fun _ => True) E := by
  intro w r w' hw hrun
  unfold Run.attempt at hrun
  rcases hout : x w with _ | ⟨r, v⟩ <;> rw [hout] at hrun <;> cases hrun
  exact ⟨(hx w _ _ hw hout).1, trivial⟩

theorem mapError {f : Error → Error} (hx : x.EndsIn I P fun e => E (f e)) :
    (x.mapError f).EndsIn I P E := by
  intro w r w' hw hrun
  unfold Run.mapError at hrun
  rcases hout : x w with _ | ⟨_ | a, v⟩ <;> rw [hout] at hrun <;> cases hrun
  · exact hx w _ _ hw hout
  · exact hx w _ _ hw hout

theorem mapM {f : β → Run α} {l : List β} (h : ∀ b ∈ l, (f b).EndsIn I P E) :
    EndsIn I (l.mapM f) (fun ys => ∀ y ∈ ys, P y) E := by
  induction l with
  | nil => exact .pure (by simp)
  | cons b l ih =>
    rw [List.mapM_cons]
    have ih := ih fun c hc => h c (by simp [hc])
    refine (h b (by simp)).bind fun y hy => ih.bind fun ys hys => .pure ?_
    exact List.forall_mem_cons.2 ⟨hy, hys⟩

theorem foldlM {f : α → β → Run α} {l : List β}
    (h : ∀ a, P a → ∀ b ∈ l, (f a b).EndsIn I P E) {a : α} (ha : P a) :
    EndsIn I (l.foldlM f a) P E := by
  induction l generalizing a with
  | nil => exact .pure ha
  | cons b l ih =>
    rw [List.foldlM_cons]
    exact (h a ha b (by simp)).bind fun a' ha' => ih (fun a ha c hc => h a ha c (by simp [hc])) ha'

/-- A run that returns with much fuel does not fail with any, where more fuel never changes an
outcome. -/
theorem of_returnsIn {x : Nat → Run α} {N : Nat}
    (hx : ∀ {n m}, n ≤ m → Refines (fun _ _ => True) (x n) (x m))
    (h : ∀ n ≥ N, (x n).ReturnsIn I P) (n : Nat) : (x n).EndsIn I P E := by
  intro w r w' hw hrun
  obtain ⟨hw', a, rfl, ha⟩ := ReturnsIn.outcome_of_le hx h hw hrun
  exact ⟨hw', ha⟩

end EndsIn

end Run

end LispKernel
