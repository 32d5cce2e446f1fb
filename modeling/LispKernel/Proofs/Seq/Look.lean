import LispKernel.Proofs.Lazy.Memo

/-!
# Looks

A look at a sequence realizes lazy cells until one fails or a sequence shows its front. Walks look
at one sequence several times, for whether it is empty, for its first element and for its rest. What
the machine has realized stays realized, so after a look that came to a front every other look finds
the same front and changes nothing.
-/
namespace LispKernel

variable {n : Nat} {w w' v : World}

namespace Front

/-- An element is taken without looking further, at the cost of storage at most. -/
theorem first_ahead (f : Front) (v : World) : ∃ x u, f.first v = some (.ok x, u) ∧ v.Ahead u := by
  cases f with
  | done => exact ⟨_, _, rfl, .refl v⟩
  | item x rest => exact ⟨_, _, rfl, .refl v⟩
  | entry key value rest => exact ⟨_, _, rfl, 1, rfl⟩

theorem eq_done {f : Front} (h : f.isDone = true) : f = .done := by
  cases f with
  | done => rfl
  | item x rest => cases h
  | entry key value rest => cases h

end Front

namespace Seq

open Run (ComesTo)

variable {force : Force} {s : Seq} {f : Front} {e : Error}

/-- The sequence shows its front whatever the world is and however cells are realized. -/
def Opens (s : Seq) (f : Front) : Prop :=
  ∀ (force : Force) (n : Nat) (w : World), s.front force (n + 1) w = some (.ok f, w)

theorem opens_view (kind : ViewKind) (storage : Storage) (slice : Slice) (info : Info) :
    (view kind storage slice info).Opens (slice.front kind storage) := fun _ _ _ => rfl

theorem opens_entries (storage : Storage) (slice : EntrySlice) (info : Info) :
    (entries storage slice info).Opens (slice.front storage) := fun _ _ _ => rfl

theorem opens_or_lazy (s : Seq) : (∃ f, s.Opens f) ∨ ∃ cell info, s = .lazy cell info := by
  cases s with
  | empty info => exact .inl ⟨_, fun _ _ _ => rfl⟩
  | cons cell x rest info => exact .inl ⟨_, fun _ _ _ => rfl⟩
  | view kind storage slice info => exact .inl ⟨_, opens_view kind storage slice info⟩
  | entries storage slice info => exact .inl ⟨_, opens_entries storage slice info⟩
  | «lazy» cell info => exact .inr ⟨cell, info, rfl⟩

/-- What a look at a sequence comes to: lazy cells are realized until one fails or a sequence shows
its front. -/
inductive Look (force : Force) : Seq → World → Except Error Front → World → Prop where
  | opens {s : Seq} {f : Front} {w : World} : s.Opens f → Look force s w (.ok f) w
  | broken {cell : LazyRef} {info : Info} {w w' : World} {e : Error} :
      force cell w = some (.error e, w') → Look force (.lazy cell info) w (.error e) w'
  | realized {cell : LazyRef} {info : Info} {s : Seq} {w v w' : World} {r : Except Error Front} :
      force cell w = some (.ok s, v) → Look force s v r w' → Look force (.lazy cell info) w r w'

theorem Look.comesTo {r : Except Error Front} (h : Look force s w r w') :
    ComesTo (fun n => s.front force n) w r w' := by
  induction h with
  | opens hs => exact .of_succ (N := 0) fun n _ => hs force n _
  | broken hcell => exact .of_succ (N := 0) fun n _ => Run.bind_eq_error.2 (.inl hcell)
  | realized hcell _ ih =>
    obtain ⟨N, hN⟩ := ih
    exact .of_succ fun n hn => (Run.bind_of_ok hcell).trans (hN n hn)

theorem look_of_front {r : Except Error Front} (h : s.front force n w = some (r, w')) :
    Look force s w r w' := by
  induction n generalizing s w with
  | zero => cases h
  | succ n ih =>
    rcases s.opens_or_lazy with ⟨f, hs⟩ | ⟨cell, info, rfl⟩
    · cases (hs force n w).symm.trans h
      exact .opens hs
    · rcases hcell : force cell w with _ | ⟨e | t, v⟩
      · simp [front, bind, Run.bind, hcell] at h
      · cases (Run.bind_eq_error.2 (.inl hcell)).symm.trans h
        exact .broken hcell
      · exact .realized hcell (ih ((Run.bind_of_ok hcell).symm.trans h))

theorem Look.unique {r t : Except Error Front} (h : Look force s w r w')
    (h' : Look force s w t v) : r = t ∧ w' = v := h.comesTo.same h'.comesTo

/-! ## Kinds of looks -/

theorem isEmpty_of_front (h : s.front force n w = some (.ok f, v)) :
    s.isEmpty force n w = some (.ok f.isDone, v) := by
  rw [isEmpty_eq]
  exact Run.bind_of_ok h

theorem isEmpty_of_broken (h : s.front force n w = some (.error e, v)) :
    s.isEmpty force n w = some (.error e, v) := by
  rw [isEmpty_eq]
  exact Run.bind_eq_error.2 (.inl h)

theorem first_of_front (h : s.front force n w = some (.ok f, v)) :
    s.first force n w = f.first v := by
  rw [first_eq]
  exact Run.bind_of_ok h

theorem first_of_broken (h : s.front force n w = some (.error e, v)) :
    s.first force n w = some (.error e, v) := by
  rw [first_eq]
  exact Run.bind_eq_error.2 (.inl h)

theorem rest_of_front (h : s.front force n w = some (.ok f, v)) :
    s.rest force n w = some (.ok f.rest, v) := by
  rw [rest_eq]
  exact Run.bind_of_ok h

theorem rest_of_broken (h : s.front force n w = some (.error e, v)) :
    s.rest force n w = some (.error e, v) := by
  rw [rest_eq]
  exact Run.bind_eq_error.2 (.inl h)

/-! ## Looking again -/

/-- As long as lazy cells are what they are in the world, a look finds the front and changes
nothing. -/
def Settled (force : Force) (n : Nat) (s : Seq) (f : Front) (v : World) : Prop :=
  ∀ u : World, u.lazies = v.lazies → s.front force n u = some (.ok f, u)

theorem Opens.settled (h : s.Opens f) (force : Force) (n : Nat) (v : World) :
    Settled force (n + 1) s f v := fun u _ => h force n u

/-- A look that came to a front has settled it. -/
def Steady (force : Force) : Prop :=
  ∀ {n : Nat} {s : Seq} {f : Front} {w v : World},
    s.front force n w = some (.ok f, v) → Settled force n s f v

/-- The look for the rest comes after the one for the first element, which may take storage. -/
theorem next_of_front {x : Value} (hfront : s.front force n w = some (.ok f, v))
    (hsettled : Settled force n s f v) (hdone : f.isDone = false)
    (hfirst : f.first v = some (.ok x, w')) :
    s.next force n w = some (.ok (some (x, f.rest)), w') := by
  obtain ⟨y, u, hy, k, hk⟩ := f.first_ahead v
  cases hy.symm.trans hfirst
  have hlazies : w'.lazies = v.lazies := by rw [hk]
  rw [next, Run.bind_of_ok (isEmpty_of_front hfront), hdone]
  have hhead : s.first force n v = some (.ok x, w') := by
    rw [first_of_front (hsettled v rfl), hfirst]
  have htail := rest_of_front (hsettled w' hlazies)
  exact (Run.bind_of_ok hhead).trans (Run.bind_of_ok htail)

theorem next_of_done (h : s.front force n w = some (.ok .done, v)) :
    s.next force n w = some (.ok none, v) := Run.bind_of_ok (isEmpty_of_front h)

theorem next_of_broken (h : s.front force n w = some (.error e, v)) :
    s.next force n w = some (.error e, v) := Run.bind_eq_error.2 (.inl (isEmpty_of_broken h))

end Seq

namespace Machine

theorem front_evolves {m : Nat} {s : Seq} {r : Except Error Front}
    (h : s.front (force m) n w = some (r, v)) : Evolves w v := by
  have hQ := Run.Refines.congruence evolves_steps.change
  have hforce := (refines evolves_steps (Nat.le_refl m)).2.2
  exact (Seq.front_congr hQ hforce (Nat.le_refl n) s _ _ _ h).2

/-- A look that came to a front left the cells on its way realized, and a second one finds the front
without a call. -/
theorem force_steady (m : Nat) : Seq.Steady (force m) := by
  intro n s f w v h u hu
  induction n generalizing s w with
  | zero => cases h
  | succ n ih =>
    rcases s.opens_or_lazy with ⟨g, hs⟩ | ⟨cell, info, rfl⟩
    · cases (hs (force m) n w).symm.trans h
      exact hs (force m) n u
    · obtain ⟨t, v₀, hcell, hfront⟩ := Run.bind_eq_ok.1 h
      have hagain : force m cell u = some (.ok t, u) := by
        cases m with
        | zero => cases hcell
        | succ m =>
          by_cases hlt : cell < w.lazies.size
          · obtain ⟨made, hmade⟩ := front_evolves hfront
            have hv := (hmade.realized (force_ok hlt hcell)).1
            exact LazyCell.realize_realized (by rw [hu, hv])
          · -- without a cell there is the empty list, and looking at that does not add the cell
            have hnone : w.lazies.get? cell = none := Heap.get?_eq_none_iff.2 (Nat.not_lt.1 hlt)
            cases (LazyCell.realize_none hnone).symm.trans hcell
            cases n with
            | zero => cases hfront
            | succ n =>
              cases hfront
              exact LazyCell.realize_none (by rw [hu, hnone])
      exact (Run.bind_of_ok hagain).trans (ih hfront)

theorem next_of_front {m : Nat} {s : Seq} {f : Front} {x : Value}
    (hfront : s.front (force m) n w = some (.ok f, v)) (hdone : f.isDone = false)
    (hfirst : f.first v = some (.ok x, w')) :
    s.next (force m) n w = some (.ok (some (x, f.rest)), w') :=
  Seq.next_of_front hfront (force_steady m hfront) hdone hfirst

end Machine

end LispKernel
