import LispKernel.Run

/-!
# Refinement of runs

A run refines another if the second comes to whatever the first comes to, by a change of the world
that a given relation allows. Where every change is allowed, this says that a run with more fuel
keeps a finished answer; where both runs are the same, it says what a run may do to the world,
whether it ends with a value or with an error. A second kind of refinement holds in the worlds of an
invariant only. Both are congruences: the ways to build runs from runs respect them.
-/
namespace LispKernel

/-- What a relation between worlds must allow for runs that take storage and one after another. -/
structure Change (R : World → World → Prop) : Prop where
  refl (w : World) : R w w
  trans {u v w : World} : R u v → R v w → R u w
  storage (w : World) : R w { w with storages := w.storages + 1 }

/-- An invariant that is kept when storage is taken. -/
def Elastic (I : World → Prop) : Prop := ∀ w, I w → I { w with storages := w.storages + 1 }

/-- Every change is allowed. -/
theorem Change.any : Change (fun _ _ => True) :=
  ⟨fun _ => trivial, fun _ _ => trivial, fun _ => trivial⟩

namespace Run

variable {α β : Type} {w w' : World}

theorem gets_bind (f : World → α) (g : α → Run β) : (Run.gets f >>= g) w = g (f w) w := rfl

theorem bind_of_ok {x : Run α} {f : α → Run β} {a : α} (h : x w = some (.ok a, w')) :
    (x >>= f) w = f a w' := by
  show Run.bind x f w = _
  rw [Run.bind, h]

theorem attempt_eq {x : Run α} {r : Except Error α} (h : x w = some (r, w')) :
    x.attempt w = some (.ok r, w') := by
  rw [attempt, h]

theorem bind_eq_ok {x : Run α} {f : α → Run β} {b : β} :
    (x >>= f) w = some (.ok b, w') ↔ ∃ a v, x w = some (.ok a, v) ∧ f a v = some (.ok b, w') := by
  show Run.bind x f w = _ ↔ _
  unfold Run.bind
  rcases x w with _ | ⟨_ | a, v⟩ <;> simp [and_assoc]

theorem bind_eq_error {x : Run α} {f : α → Run β} {e : Error} :
    (x >>= f) w = some (.error e, w') ↔
      x w = some (.error e, w') ∨ ∃ a v, x w = some (.ok a, v) ∧ f a v = some (.error e, w') := by
  show Run.bind x f w = _ ↔ _
  unfold Run.bind
  rcases x w with _ | ⟨_ | a, v⟩ <;> simp [and_assoc]

theorem bind_eq_some {x : Run α} {f : α → Run β} {r : Except Error β} :
    (x >>= f) w = some (r, w') ↔ (∃ e, r = .error e ∧ x w = some (.error e, w')) ∨
      ∃ a v, x w = some (.ok a, v) ∧ f a v = some (r, w') := by
  cases r with
  | error e => simp [bind_eq_error]
  | ok b => simp [bind_eq_ok]

def Refines (R : World → World → Prop) (x y : Run α) : Prop :=
  ∀ w r w', x w = some (r, w') → y w = some (r, w') ∧ R w w'

/-- In the worlds of an invariant the second run comes to whatever the first comes to, and the
invariant holds afterwards. -/
def RefinesIn (I : World → Prop) (x y : Run α) : Prop :=
  ∀ w r w', I w → x w = some (r, w') → y w = some (r, w') ∧ I w'

end Run

/-- A relation between runs that the ways to build runs respect. No outcome is related to every run,
since the run on the right may have more fuel. -/
structure Congruence (Q : (α : Type) → Run α → Run α → Prop) : Prop where
  exhausted {α : Type} (y : Run α) : Q α Run.exhausted y
  reading {α : Type} {x : Run α} : (∀ w, ∃ r, x w = some (r, w)) → Q α x x
  freshStorage : Q Storage Run.freshStorage Run.freshStorage
  bind {α β : Type} {x y : Run α} {f g : α → Run β} :
    Q α x y → (∀ a, Q β (f a) (g a)) → Q β (x >>= f) (y >>= g)
  attempt {α : Type} {x y : Run α} : Q α x y → Q (Except Error α) x.attempt y.attempt
  lenient {x y : Run Bool} : Q Bool x y → Q Bool x.lenient y.lenient
  mapError {α : Type} {x y : Run α} {f : Error → Error} :
    Q α x y → Q α (x.mapError f) (y.mapError f)

namespace Congruence

variable {α β : Type} {Q : (α : Type) → Run α → Run α → Prop} (hQ : Congruence Q)

include hQ

theorem pure (a : α) : Q α (Pure.pure a) (Pure.pure a) := hQ.reading fun _ => ⟨_, rfl⟩

theorem fail (e : Error) : Q α (Run.fail e) (Run.fail e) := hQ.reading fun _ => ⟨_, rfl⟩

theorem ofExcept (r : Except Error α) : Q α (Run.ofExcept r) (Run.ofExcept r) :=
  hQ.reading fun _ => ⟨_, rfl⟩

theorem gets (f : World → α) : Q α (Run.gets f) (Run.gets f) := hQ.reading fun _ => ⟨_, rfl⟩

theorem foldlM {f g : β → α → Run β} {l : List α} (h : ∀ b, ∀ a ∈ l, Q β (f b a) (g b a))
    (b : β) : Q β (l.foldlM f b) (l.foldlM g b) := by
  induction l generalizing b with
  | nil => exact hQ.pure b
  | cons a l ih =>
    rw [List.foldlM_cons, List.foldlM_cons]
    exact hQ.bind (h b a (by simp)) (ih fun b c hc => h b c (by simp [hc]))

theorem mapM {f g : α → Run β} {l : List α} (h : ∀ a ∈ l, Q β (f a) (g a)) :
    Q (List β) (l.mapM f) (l.mapM g) := by
  induction l with
  | nil => exact hQ.pure []
  | cons a l ih =>
    have ih := ih fun c hc => h c (by simp [hc])
    rw [List.mapM_cons, List.mapM_cons]
    exact hQ.bind (h a (by simp)) fun b => hQ.bind ih fun bs => hQ.pure (b :: bs)

end Congruence

/-- Runs that are related in many ways at once. -/
theorem Congruence.all {ι : Type} {Q : ι → (α : Type) → Run α → Run α → Prop}
    (hQ : ∀ i, Congruence (Q i)) : Congruence fun α x y => ∀ i, Q i α x y where
  exhausted y i := (hQ i).exhausted y
  reading h i := (hQ i).reading h
  freshStorage i := (hQ i).freshStorage
  bind hx hf i := (hQ i).bind (hx i) fun a => hf a i
  attempt h i := (hQ i).attempt (h i)
  lenient h i := (hQ i).lenient (h i)
  mapError h i := (hQ i).mapError (h i)

namespace Run

variable {α β : Type} {x y : Run α}

namespace RefinesIn

variable {I : World → Prop}

theorem bind {f g : α → Run β} (hx : RefinesIn I x y) (hf : ∀ a, RefinesIn I (f a) (g a)) :
    RefinesIn I (x >>= f) (y >>= g) := by
  intro w r w' hw h
  cases r with
  | ok b =>
    obtain ⟨a, v, ha, hb⟩ := bind_eq_ok.1 h
    obtain ⟨hy, hv⟩ := hx _ _ _ hw ha
    obtain ⟨hg, hw'⟩ := hf a _ _ _ hv hb
    exact ⟨bind_eq_ok.2 ⟨a, v, hy, hg⟩, hw'⟩
  | error e =>
    rcases bind_eq_error.1 h with he | ⟨a, v, ha, hb⟩
    · obtain ⟨hy, hw'⟩ := hx _ _ _ hw he
      exact ⟨bind_eq_error.2 (.inl hy), hw'⟩
    · obtain ⟨hy, hv⟩ := hx _ _ _ hw ha
      obtain ⟨hg, hw'⟩ := hf a _ _ _ hv hb
      exact ⟨bind_eq_error.2 (.inr ⟨a, v, hy, hg⟩), hw'⟩

theorem attempt (h : RefinesIn I x y) : RefinesIn I x.attempt y.attempt := by
  intro w r w' hw hx
  unfold Run.attempt at hx ⊢
  rcases hout : x w with _ | ⟨r₁, w₁⟩ <;> simp only [hout] at hx <;> cases hx
  obtain ⟨hy, hw'⟩ := h _ _ _ hw hout
  exact ⟨by rw [hy], hw'⟩

theorem lenient {x y : Run Bool} (h : RefinesIn I x y) : RefinesIn I x.lenient y.lenient := by
  intro w r w' hw hx
  unfold Run.lenient at hx ⊢
  rcases hout : x w with _ | ⟨_ | b, w₁⟩ <;> simp only [hout] at hx <;> cases hx
  all_goals
    obtain ⟨hy, hw'⟩ := h _ _ _ hw hout
    exact ⟨by rw [hy], hw'⟩

theorem mapError {f : Error → Error} (h : RefinesIn I x y) :
    RefinesIn I (x.mapError f) (y.mapError f) := by
  intro w r w' hw hx
  unfold Run.mapError at hx ⊢
  rcases hout : x w with _ | ⟨_ | a, w₁⟩ <;> simp only [hout] at hx <;> cases hx
  all_goals
    obtain ⟨hy, hw'⟩ := h _ _ _ hw hout
    exact ⟨by rw [hy], hw'⟩

/-- Runs that refine each other come to the same. -/
theorem antisymm (h : RefinesIn I x y) (h' : RefinesIn I y x) {w : World} (hw : I w) :
    x w = y w := by
  rcases hx : x w with _ | ⟨r, w'⟩
  · rcases hy : y w with _ | ⟨r, w'⟩
    · rfl
    · rw [(h' w r w' hw hy).1] at hx
      cases hx
  · rw [(h w r w' hw hx).1]

/-- A run that always succeeds, with a change that keeps the invariant. -/
theorem change {f : World → α} {g : World → World} (h : ∀ w, I w → I (g w)) :
    RefinesIn I (fun w => some (.ok (f w), g w)) (fun w => some (.ok (f w), g w)) := by
  intro w r w' hw hx
  cases hx
  exact ⟨rfl, h w hw⟩

theorem congruence (hI : Elastic I) : Congruence fun _ => RefinesIn I where
  exhausted y w r w' _ h := by simp [Run.exhausted] at h
  reading hx w r w' hw h := by
    obtain ⟨r', hr⟩ := hx w
    rw [hr] at h
    cases h
    exact ⟨hr, hw⟩
  freshStorage := change hI
  bind := bind
  attempt := attempt
  lenient := lenient
  mapError := mapError

end RefinesIn

namespace Refines

variable {R : World → World → Prop}

/-- All that is allowed from one world on is an invariant. -/
theorem iff_refinesIn (hR : Change R) : Refines R x y ↔ ∀ u, RefinesIn (R u) x y := by
  constructor
  · intro h u w r w' hu hx
    obtain ⟨hy, hw⟩ := h w r w' hx
    exact ⟨hy, hR.trans hu hw⟩
  · intro h w r w' hx
    exact h w w r w' (hR.refl w) hx

theorem congruence (hR : Change R) : Congruence fun _ => Refines R := by
  have hall : Congruence fun α (x y : Run α) => ∀ u, RefinesIn (R u) x y :=
    .all fun u => RefinesIn.congruence fun w hw => hR.trans hw (hR.storage w)
  simpa only [← iff_refinesIn hR] using hall

/-- With every change allowed: a finished answer is kept. -/
theorem any : Congruence fun _ => Refines fun _ _ => True := congruence .any

theorem pure (hR : Change R) (a : α) : Refines R (Pure.pure a) (Pure.pure a) :=
  (congruence hR).pure a

theorem bind (hR : Change R) {f g : α → Run β} (hx : Refines R x y)
    (hf : ∀ a, Refines R (f a) (g a)) : Refines R (x >>= f) (y >>= g) :=
  (congruence hR).bind hx hf

theorem attempt (h : Refines R x y) : Refines R x.attempt y.attempt := by
  intro w r w' hx
  unfold Run.attempt at hx ⊢
  rcases hw : x w with _ | ⟨r₁, w₁⟩ <;> simp only [hw] at hx <;> cases hx
  obtain ⟨hy, hw'⟩ := h _ _ _ hw
  exact ⟨by rw [hy], hw'⟩

/-- A run that always succeeds with a change that is allowed. -/
theorem change {f : World → α} {g : World → World} (h : ∀ w, R w (g w)) :
    Refines R (fun w => some (.ok (f w), g w)) (fun w => some (.ok (f w), g w)) := by
  intro w r w' hx
  cases hx
  exact ⟨rfl, h w⟩

end Refines

end Run

end LispKernel
