import LispKernel.World

/-!
# Runs

A run starts in a world and ends with a value or an error and the world it leaves, or it has no
outcome because its fuel was too small. An error does not undo what was done before it.
-/
namespace LispKernel

def Run (α : Type) : Type := World → Option (Except Error α × World)

namespace Run

variable {α β : Type}

@[always_inline, inline]
protected def pure (a : α) : Run α := fun w => some (.ok a, w)

@[always_inline, inline]
protected def bind (x : Run α) (f : α → Run β) : Run β := fun w =>
  match x w with
  | some (.ok a, w') => f a w'
  | some (.error e, w') => some (.error e, w')
  | none => none

@[always_inline]
instance : Monad Run where
  pure := Run.pure
  bind := Run.bind

@[inline] def fail (e : Error) : Run α := fun w => some (.error e, w)

/-- No outcome. -/
@[inline] def exhausted : Run α := fun _ => none

@[inline] def ofExcept (r : Except Error α) : Run α := fun w => some (r, w)

/-- The outcome as a value, an error included. -/
@[inline] def attempt (x : Run α) : Run (Except Error α) := fun w =>
  match x w with
  | some (r, w') => some (.ok r, w')
  | none => none

/-- A failed test counts as false. -/
@[inline] def lenient (x : Run Bool) : Run Bool := fun w =>
  match x w with
  | some (.ok b, w') => some (.ok b, w')
  | some (.error _, w') => some (.ok false, w')
  | none => none

@[inline] def mapError (f : Error → Error) (x : Run α) : Run α := fun w =>
  match x w with
  | some (.error e, w') => some (.error (f e), w')
  | r => r

@[inline] def gets (f : World → α) : Run α := fun w => some (.ok (f w), w)

@[inline] def update (f : World → World) : Run Unit := fun w => some (.ok (), f w)

instance : LawfulMonad Run := LawfulMonad.mk' Run
  (by
    intro α x
    funext w
    simp only [Functor.map, Run.bind, Run.pure, Function.comp]
    split <;> simp_all)
  (by intros; rfl)
  (by
    intro α β γ x f g
    funext w
    simp only [bind, Run.bind]
    cases x w with
    | none => rfl
    | some p => obtain ⟨r, w'⟩ := p; cases r <;> rfl)

/-- The number of storage that nothing holds yet. -/
def freshStorage : Run Storage := fun w =>
  some (.ok w.storages, { w with storages := w.storages + 1 })

end Run

end LispKernel
