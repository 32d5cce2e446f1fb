import LispKernel.Proofs.Outcome
import LispKernel.Proofs.Value.Renaming

/-!
# Runs in the image of a world

A mirror shows each world of an invariant as another world, in which storage may have other numbers.
A run follows another one if, started in the image, it comes to the image of what the other comes
to: the same error, or the image of the value, in the image of the world. It need not follow to
errors that are excused.
-/
namespace LispKernel

open Run (EndsIn)

structure Mirror where
  Holds : World → Prop
  image : World → World
  number : Renaming
  injective : Function.Injective number
  storages {w : World} : Holds w → (image w).storages = number w.storages
  store {w : World} : Holds w → Holds { w with storages := w.storages + 1 } ∧
    image { w with storages := w.storages + 1 } =
      { image w with storages := (image w).storages + 1 }
  printLength {w : World} : Holds w → (image w).printLength = w.printLength

namespace Mirror

variable {α β γ δ : Type}

/-- In the worlds of the mirror, if `x` ends with a value then `P` holds of it and `y` ends with its
image, and if it ends with an error that is not excused then `y` ends with the same error; the
worlds they leave correspond. -/
def Follows (M : Mirror) (X : Error → Prop) (P : α → Prop) (f : α → β) (x : Run α) (y : Run β) :
    Prop :=
  ∀ w r w', M.Holds w → x w = some (r, w') →
    match r with
    | .ok a => P a ∧ M.Holds w' ∧ y (M.image w) = some (.ok (f a), M.image w')
    | .error e => X e ∨ M.Holds w' ∧ y (M.image w) = some (.error e, M.image w')

/-- No error is excused. -/
abbrev Exact (M : Mirror) (P : α → Prop) (f : α → β) (x : Run α) (y : Run β) : Prop :=
  M.Follows (fun _ => False) P f x y

variable {M : Mirror} {X : Error → Prop} {P : α → Prop} {f : α → β} {x : Run α} {y : Run β}

theorem elastic (M : Mirror) : Elastic M.Holds := fun _ hw => (M.store hw).1

namespace Follows

/-- However `x` ends, `y` ends with the image. -/
theorem image (h : M.Exact P f x y) {w w' : World} {r : Except Error α} (hw : M.Holds w)
    (hx : x w = some (r, w')) : M.Holds w' ∧ y (M.image w) = some (r.map f, M.image w') := by
  have hout := h w r w' hw hx
  cases r with
  | ok a => exact hout.2
  | error e => exact hout.resolve_left id

theorem pure {a : α} {b : β} (ha : P a) (hb : f a = b) :
    M.Follows X P f (Pure.pure a) (Pure.pure b) := by
  intro w r w' hw hrun
  cases hrun
  exact ⟨ha, hw, by rw [hb]; rfl⟩

theorem ofExcept {r : Except Error α} (h : ∀ a, r = .ok a → P a) :
    M.Follows X P f (Run.ofExcept r) (Run.ofExcept (r.map f)) := by
  intro w r w' hw hrun
  cases hrun
  cases r with
  | ok a => exact ⟨h a rfl, hw, rfl⟩
  | error e => exact .inr ⟨hw, rfl⟩

theorem fail (e : Error) : M.Follows X P f (Run.fail e) (Run.fail e) := by
  intro w r w' hw hrun
  cases hrun
  exact .inr ⟨hw, rfl⟩

theorem exhausted : M.Follows X P f Run.exhausted y := fun _ _ _ _ hrun => nomatch hrun

theorem mono {Q : α → Prop} {Y : Error → Prop} (hx : M.Follows X P f x y) (hP : ∀ a, P a → Q a)
    (hX : ∀ e, X e → Y e) : M.Follows Y Q f x y := by
  intro w r w' hw hrun
  have h := hx w r w' hw hrun
  cases r with
  | ok a => exact ⟨hP a h.1, h.2⟩
  | error e => exact h.imp_left (hX e)

/-- Where nothing is excused, anything may be. -/
theorem excusing {X : Error → Prop} (hx : M.Exact P f x y) : M.Follows X P f x y :=
  hx.mono (fun _ h => h) fun _ h => h.elim

theorem bind {g : γ → δ} {Q : γ → Prop} {k : α → Run γ} {l : β → Run δ}
    (hx : M.Follows X P f x y) (hk : ∀ a, P a → M.Follows X Q g (k a) (l (f a))) :
    M.Follows X Q g (x >>= k) (y >>= l) := by
  intro w r w' hw hrun
  cases r with
  | ok c =>
    obtain ⟨a, v, ha, hc⟩ := Run.bind_eq_ok.1 hrun
    obtain ⟨hPa, hv, hy⟩ := hx w _ v hw ha
    rw [Run.bind_of_ok hy]
    exact hk a hPa v _ w' hv hc
  | error e =>
    rcases Run.bind_eq_error.1 hrun with he | ⟨a, v, ha, he⟩
    · refine (hx w _ w' hw he).imp_right fun ⟨hw', hy⟩ => ⟨hw', ?_⟩
      exact Run.bind_eq_error.2 (.inl hy)
    · obtain ⟨hPa, hv, hy⟩ := hx w _ v hw ha
      rw [Run.bind_of_ok hy]
      exact hk a hPa v _ w' hv he

/-- A run that always succeeds. -/
theorem change {g : World → α} {h : World → World} {g' : World → β} {h' : World → World}
    (hgh : ∀ w, M.Holds w → P (g w) ∧ M.Holds (h w) ∧ g' (M.image w) = f (g w) ∧
      h' (M.image w) = M.image (h w)) :
    M.Follows X P f (fun w => some (.ok (g w), h w)) (fun w => some (.ok (g' w), h' w)) := by
  intro w r w' hw hrun
  cases hrun
  obtain ⟨hP, hw', hvalue, hworld⟩ := hgh w hw
  refine ⟨hP, hw', ?_⟩
  rw [← hvalue, ← hworld]

theorem gets {g : World → α} {g' : World → β}
    (h : ∀ w, M.Holds w → P (g w) ∧ g' (M.image w) = f (g w)) :
    M.Follows X P f (Run.gets g) (Run.gets g') :=
  change fun w hw => ⟨(h w hw).1, hw, (h w hw).2, rfl⟩

theorem freshStorage :
    M.Follows X (fun _ => True) M.number Run.freshStorage Run.freshStorage :=
  change fun _ hw => ⟨trivial, (M.store hw).1, M.storages hw, (M.store hw).2.symm⟩

/-- An outcome as a value hides no error that is excused, so there must be none. -/
theorem attempt (hx : M.Exact P f x y) :
    M.Follows X (fun r => ∀ a, r = .ok a → P a) (Except.map f) x.attempt y.attempt := by
  intro w r w' hw hrun
  unfold Run.attempt at hrun
  rcases hout : x w with _ | ⟨e | a, v⟩ <;> rw [hout] at hrun <;> cases hrun
  · obtain h | ⟨hv, hy⟩ := hx w _ _ hw hout
    · exact h.elim
    · refine ⟨fun a ha => (nomatch ha), hv, ?_⟩
      rw [Run.attempt, hy]
      rfl
  · obtain ⟨hPa, hv, hy⟩ := hx w _ _ hw hout
    refine ⟨fun b hb => by cases hb; exact hPa, hv, ?_⟩
    rw [Run.attempt, hy]
    rfl

theorem lenient {x y : Run Bool} {P : Bool → Prop} (hx : M.Exact P id x y) :
    M.Follows X (fun _ => True) id x.lenient y.lenient := by
  intro w r w' hw hrun
  unfold Run.lenient at hrun
  rcases hout : x w with _ | ⟨e | a, v⟩ <;> rw [hout] at hrun <;> cases hrun
  · obtain h | ⟨hv, hy⟩ := hx w _ _ hw hout
    · exact h.elim
    · refine ⟨trivial, hv, ?_⟩
      rw [Run.lenient, hy]
      rfl
  · obtain ⟨-, hv, hy⟩ := hx w _ _ hw hout
    refine ⟨trivial, hv, ?_⟩
    rw [Run.lenient, hy]

theorem mapError {g : Error → Error} (hg : ∀ e, X e → X (g e)) (hx : M.Follows X P f x y) :
    M.Follows X P f (x.mapError g) (y.mapError g) := by
  intro w r w' hw hrun
  unfold Run.mapError at hrun
  rcases hout : x w with _ | ⟨e | a, v⟩ <;> rw [hout] at hrun <;> cases hrun
  · refine (hx w _ _ hw hout).imp (hg e) fun ⟨hv, hy⟩ => ⟨hv, ?_⟩
    rw [Run.mapError, hy]
  · obtain ⟨hPa, hv, hy⟩ := hx w _ _ hw hout
    refine ⟨hPa, hv, ?_⟩
    rw [Run.mapError, hy]

theorem mapM {k : γ → Run α} {k' : γ → Run β} {l : List γ}
    (h : ∀ c ∈ l, M.Follows X P f (k c) (k' c)) :
    M.Follows X (fun as => ∀ a ∈ as, P a) (List.map f) (l.mapM k) (l.mapM k') := by
  induction l with
  | nil => exact .pure (by simp) rfl
  | cons c l ih =>
    rw [List.mapM_cons, List.mapM_cons]
    have ih := ih fun d hd => h d (by simp [hd])
    refine (h c (by simp)).bind fun a ha => ih.bind fun as has => .pure ?_ rfl
    exact List.forall_mem_cons.2 ⟨ha, has⟩

theorem foldlM {k : α → γ → Run α} {k' : β → γ → Run β} {l : List γ}
    (h : ∀ a, P a → ∀ c ∈ l, M.Follows X P f (k a c) (k' (f a) c)) {a : α} (ha : P a) :
    M.Follows X P f (l.foldlM k a) (l.foldlM k' (f a)) := by
  induction l generalizing a with
  | nil => exact .pure ha rfl
  | cons c l ih =>
    rw [List.foldlM_cons, List.foldlM_cons]
    refine (h a ha c (by simp)).bind fun b hb => ?_
    exact ih (fun a ha d hd => h a ha d (by simp [hd])) hb

/-- What is known of the value of a run besides. -/
theorem and_endsIn {Q : α → Prop} {E : Error → Prop} (hx : M.Follows X P f x y)
    (hQ : x.EndsIn M.Holds Q E) : M.Follows X Q f x y := by
  intro w r w' hw hrun
  have h := hx w r w' hw hrun
  cases r with
  | ok a => exact ⟨(hQ w _ w' hw hrun).2, h.2⟩
  | error e => exact h

/-- A run that is followed keeps the worlds of the mirror. -/
theorem endsIn (hx : M.Exact P f x y) : x.EndsIn M.Holds P fun _ => True := by
  intro w r w' hw hrun
  have h := hx w r w' hw hrun
  cases r with
  | ok a => exact ⟨h.2.1, h.1⟩
  | error e =>
    rcases h with h | ⟨hw', -⟩
    · exact h.elim
    · exact ⟨hw', trivial⟩

end Follows

end Mirror

end LispKernel
