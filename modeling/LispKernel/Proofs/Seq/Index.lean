import LispKernel.Proofs.Seq.Look

/-!
# Indexing with a default

A walk to a place in a sequence finds an element there, comes to the end before it, or breaks off at
a lazy cell that cannot be realized. Indexing walks so and turns the end into a range error;
indexing with a default turns every range error into the default, also one that a cell failed with.
-/
namespace LispKernel

namespace Seq

open Run (ComesTo)

variable {force : Force} {w w' v : World}

/-! ## Walks -/

/-- What a walk to a place comes to: the element there, nothing if the sequence ends before, or the
error of a cell on the way. A sequence that is not empty is looked at a second time, for its first
element or for its rest. -/
inductive Walk (force : Force) :
    Seq → Nat → World → Except Error (Option Value) → World → Prop where
  | broken {s : Seq} {place : Nat} {w w' : World} {e : Error} :
      Look force s w (.error e) w' → Walk force s place w (.error e) w'
  | ended {s : Seq} {place : Nat} {w w' : World} :
      Look force s w (.ok .done) w' → Walk force s place w (.ok none) w'
  | lost {s : Seq} {place : Nat} {f : Front} {w v w' : World} {e : Error} :
      Look force s w (.ok f) v → f.isDone = false → Look force s v (.error e) w' →
      Walk force s place w (.error e) w'
  | found {s : Seq} {f g : Front} {x : Value} {w v u w' : World} :
      Look force s w (.ok f) v → f.isDone = false → Look force s v (.ok g) u →
      g.first u = some (.ok x, w') → Walk force s 0 w (.ok (some x)) w'
  | further {s : Seq} {place : Nat} {f g : Front} {w v u w' : World}
      {r : Except Error (Option Value)} :
      Look force s w (.ok f) v → f.isDone = false → Look force s v (.ok g) u →
      Walk force g.rest place u r w' → Walk force s (place + 1) w r w'

/-! ## Indexing -/

/-- What indexing makes of a walk. -/
inductive Answers (index : Int64) : Except Error (Option Value) → Except Error Value → Prop where
  | found (x : Value) : Answers index (.ok (some x)) (.ok x)
  | ended (length : Nat) : Answers index (.ok none) (.error (.indexOutOfRange index (some length)))
  | broken (e : Error) : Answers index (.error e) (.error e)

/-- A step of indexing at a front that is not the end. -/
theorem nthFrom_succ {s : Seq} {n walked : Nat} {index : Int64} {f : Front}
    (hfront : s.front force n w = some (.ok f, v)) (hdone : f.isDone = false) :
    s.nthFrom force index (n + 1) walked w =
      (if walked = index.toInt then s.first force n
        else s.rest force n >>= nthFrom force index n (walked + 1)) v := by
  rw [nthFrom, Run.bind_of_ok (isEmpty_of_front hfront), hdone, if_neg Bool.false_ne_true]

/-- A step of indexing at a front that is found again. -/
theorem nthFrom_of_settled {s : Seq} {n walked : Nat} {index : Int64} {f : Front}
    (hfront : s.front force n w = some (.ok f, v)) (hsettled : Settled force n s f v)
    (hdone : f.isDone = false) :
    s.nthFrom force index (n + 1) walked w =
      (if walked = index.toInt then f.first else nthFrom force index n (walked + 1) f.rest) v := by
  have hagain := hsettled v rfl
  rw [nthFrom_succ hfront hdone]
  split
  · exact first_of_front hagain
  · exact Run.bind_of_ok (rest_of_front hagain)

theorem nthFrom_of_broken {s : Seq} {n walked : Nat} {index : Int64} {e : Error}
    (h : s.front force n w = some (.error e, v)) :
    s.nthFrom force index (n + 1) walked w = some (.error e, v) :=
  Run.bind_eq_error.2 (.inl (isEmpty_of_broken h))

theorem nthFrom_of_done {s : Seq} {n walked : Nat} {index : Int64}
    (h : s.front force n w = some (.ok .done, v)) :
    s.nthFrom force index (n + 1) walked w =
      some (.error (.indexOutOfRange index (some walked)), v) :=
  Run.bind_of_ok (isEmpty_of_front h)

theorem Walk.nthFrom {s : Seq} {place walked : Nat} {r : Except Error (Option Value)}
    {index : Int64} (h : Walk force s place w r w') (hindex : index.toInt = walked + place) :
    ∃ t, Answers index r t ∧ ComesTo (fun n => s.nthFrom force index n walked) w t w' := by
  induction h generalizing walked with
  | broken hlook =>
    obtain ⟨N, hN⟩ := hlook.comesTo
    exact ⟨_, .broken _, .of_succ fun n hn => nthFrom_of_broken (hN n hn)⟩
  | ended hlook =>
    obtain ⟨N, hN⟩ := hlook.comesTo
    exact ⟨_, .ended walked, .of_succ fun n hn => nthFrom_of_done (hN n hn)⟩
  | lost hlook hdone hagain =>
    obtain ⟨N, hN⟩ := hlook.comesTo
    obtain ⟨M, hM⟩ := hagain.comesTo
    refine ⟨_, .broken _, .of_succ (N := max N M) fun n hn => ?_⟩
    have hbroken := hM n (by omega)
    rw [nthFrom_succ (hN n (by omega)) hdone]
    split
    · exact first_of_broken hbroken
    · exact Run.bind_eq_error.2 (.inl (rest_of_broken hbroken))
  | found hlook hdone hagain hfirst =>
    obtain ⟨N, hN⟩ := hlook.comesTo
    obtain ⟨M, hM⟩ := hagain.comesTo
    refine ⟨_, .found _, .of_succ (N := max N M) fun n hn => ?_⟩
    rw [nthFrom_succ (hN n (by omega)) hdone, if_pos (by omega),
      first_of_front (hM n (by omega)), hfirst]
  | @further _ place _ _ _ _ _ _ _ hlook hdone hagain _ ih =>
    obtain ⟨N, hN⟩ := hlook.comesTo
    obtain ⟨M, hM⟩ := hagain.comesTo
    have hindex' : index.toInt = (walked + 1 : Nat) + place := by omega
    obtain ⟨t, ht, K, hK⟩ := ih hindex'
    refine ⟨t, ht, .of_succ (N := max (max N M) K) fun n hn => ?_⟩
    rw [nthFrom_succ (hN n (by omega)) hdone, if_neg (by omega),
      Run.bind_of_ok (rest_of_front (hM n (by omega)))]
    exact hK n (by omega)

/-- Indexing does nothing but walk. -/
theorem walk_of_nthFrom {s : Seq} {n place walked : Nat} {t : Except Error Value} {index : Int64}
    (h : s.nthFrom force index n walked w = some (t, w')) (hindex : index.toInt = walked + place) :
    ∃ r, Walk force s place w r w' ∧ Answers index r t := by
  induction n generalizing s place walked w with
  | zero => cases h
  | succ n ih =>
    rw [Seq.nthFrom, isEmpty_eq, bind_assoc] at h
    rcases Run.bind_eq_some.1 h with ⟨e, rfl, hfront⟩ | ⟨f, v, hfront, hstep⟩
    · exact ⟨_, .broken (look_of_front hfront), .broken e⟩
    · have hlook := look_of_front hfront
      rw [pure_bind] at hstep
      cases hdone : f.isDone with
      | true =>
        cases Front.eq_done hdone
        cases hstep
        exact ⟨_, .ended hlook, .ended walked⟩
      | false =>
        rw [hdone, if_neg Bool.false_ne_true] at hstep
        cases place with
        | zero =>
          rw [if_pos (by omega), first_eq] at hstep
          rcases Run.bind_eq_some.1 hstep with ⟨e, rfl, hbroken⟩ | ⟨g, u, hagain, hfirst⟩
          · exact ⟨_, .lost hlook hdone (look_of_front hbroken), .broken e⟩
          · obtain ⟨x, u', hx, -⟩ := g.first_ahead u
            cases hx.symm.trans hfirst
            exact ⟨_, .found hlook hdone (look_of_front hagain) hx, .found x⟩
        | succ place =>
          rw [if_neg (by omega), rest_eq, bind_assoc] at hstep
          rcases Run.bind_eq_some.1 hstep with ⟨e, rfl, hbroken⟩ | ⟨g, u, hagain, hrest⟩
          · exact ⟨_, .lost hlook hdone (look_of_front hbroken), .broken e⟩
          · have hindex' : index.toInt = (walked + 1 : Nat) + place := by omega
            obtain ⟨r, hwalk, hr⟩ := ih hrest hindex'
            exact ⟨r, .further hlook hdone (look_of_front hagain) hwalk, hr⟩

theorem nth_of_neg {s : Seq} {n : Nat} {index : Int64} (h : index < 0) :
    s.nth force n index = .fail (.indexOutOfRange index none) := if_pos h

theorem nth_of_nonneg {s : Seq} {n : Nat} {index : Int64} (h : ¬index < 0) :
    s.nth force n index = s.nthFrom force index n 0 := if_neg h

theorem toInt_of_nonneg {index : Int64} (h : ¬index < 0) :
    index.toInt = (0 : Nat) + index.toInt.toNat := by
  rw [Int64.lt_iff_toInt_lt, Int64.toInt_zero] at h
  omega

/-! ## Defaults -/

def isRangeError : Error → Bool
  | .indexOutOfRange .. => true
  | _ => false

theorem tryNth_of_ok {s : Seq} {n : Nat} {index : Int64} {default x : Value}
    (h : s.nth force n index w = some (.ok x, w')) :
    s.tryNth force n index default w = some (.ok x, w') := by
  have hattempt : (s.nth force n index).attempt w = some (.ok (.ok x), w') := by
    rw [Run.attempt, h]
  exact Run.bind_of_ok hattempt

theorem tryNth_of_error {s : Seq} {n : Nat} {index : Int64} {default : Value} {e : Error}
    (h : s.nth force n index w = some (.error e, w')) :
    s.tryNth force n index default w =
      some (if isRangeError e then .ok default else .error e, w') := by
  have hattempt : (s.nth force n index).attempt w = some (.ok (.error e), w') := by
    rw [Run.attempt, h]
  rw [tryNth, Run.bind_of_ok hattempt]
  cases e <;> rfl

/-- What indexing with a default makes of a walk. -/
def withDefault (default : Value) : Except Error (Option Value) → Except Error Value
  | .ok x => .ok (x.getD default)
  | .error e => if isRangeError e then .ok default else .error e

theorem Walk.tryNth {s : Seq} {index : Int64} {r : Except Error (Option Value)}
    (hindex : ¬index < 0) (h : Walk force s index.toInt.toNat w r w') (default : Value) :
    ComesTo (s.tryNth force · index default) w (withDefault default r) w' := by
  obtain ⟨t, ht, N, hN⟩ := h.nthFrom (toInt_of_nonneg hindex)
  refine ⟨N, fun n hn => ?_⟩
  have hnth : s.nth force n index w = some (t, w') := by
    rw [nth_of_nonneg hindex]
    exact hN n hn
  cases ht with
  | found x => exact tryNth_of_ok hnth
  | ended length => exact tryNth_of_error hnth
  | broken e => exact tryNth_of_error hnth

theorem nth_ends_iff (force : Force) (s : Seq) (index : Int64) (w : World) :
    (∃ n t w', s.nth force n index w = some (t, w')) ↔
      index < 0 ∨ ∃ r w', Walk force s index.toInt.toNat w r w' := by
  by_cases hindex : index < 0
  · simp only [hindex, true_or, iff_true]
    exact ⟨0, _, _, by rw [nth_of_neg hindex]; rfl⟩
  · have hnonneg := toInt_of_nonneg hindex
    simp only [nth_of_nonneg hindex, hindex, false_or]
    constructor
    · rintro ⟨n, t, w', h⟩
      obtain ⟨r, hwalk, -⟩ := walk_of_nthFrom h hnonneg
      exact ⟨r, w', hwalk⟩
    · rintro ⟨r, w', h⟩
      obtain ⟨t, -, N, hN⟩ := h.nthFrom hnonneg
      exact ⟨N, t, w', hN N (Nat.le_refl N)⟩

/-- The default is for an index that is out of range and for nothing else. -/
structure DefaultsOutOfRange (force : Force) (s : Seq) (index : Int64) (default : Value)
    (w : World) : Prop where
  negative : index < 0 → ComesTo (s.tryNth force · index default) w (.ok default) w
  ended {w' : World} : ¬index < 0 → Walk force s index.toInt.toNat w (.ok none) w' →
    ComesTo (s.tryNth force · index default) w (.ok default) w'
  found {x : Value} {w' : World} : ComesTo (s.nth force · index) w (.ok x) w' →
    ComesTo (s.tryNth force · index default) w (.ok x) w'
  broken {e : Error} {w' : World} : ¬index < 0 → Walk force s index.toInt.toNat w (.error e) w' →
    ComesTo (s.tryNth force · index default) w (.error e) w'

/-- Indexing walks to the index, and its default is for an index out of range only, unless a cell
on the way fails with a range error of its own: that one is taken for the error of the walk. -/
theorem tryNth_defaults_iff (force : Force) (s : Seq) (index : Int64) (default : Value)
    (w : World) :
    ((∃ n t w', s.nth force n index w = some (t, w')) ↔
      index < 0 ∨ ∃ r w', Walk force s index.toInt.toNat w r w') ∧
    (DefaultsOutOfRange force s index default w ↔ index < 0 ∨ ¬∃ i length w',
      Walk force s index.toInt.toNat w (.error (.indexOutOfRange i length)) w') := by
  refine ⟨nth_ends_iff force s index w, ?_⟩
  constructor
  · intro h
    by_cases hindex : index < 0
    · exact .inl hindex
    · refine .inr ?_
      rintro ⟨i, length, w', hwalk⟩
      -- the default would have to be the error
      cases (h.broken hindex hwalk).unique (hwalk.tryNth hindex default)
  · intro h
    refine ⟨?_, ?_, ?_, ?_⟩
    · intro hindex
      refine ⟨0, fun n _ => ?_⟩
      have hnth : s.nth force n index w = some (.error (.indexOutOfRange index none), w) := by
        rw [nth_of_neg hindex]
        rfl
      exact tryNth_of_error hnth
    · intro w' hindex hwalk
      exact hwalk.tryNth hindex default
    · rintro x w' ⟨N, hN⟩
      exact ⟨N, fun n hn => tryNth_of_ok (hN n hn)⟩
    · intro e w' hindex hwalk
      have hresult := hwalk.tryNth hindex default
      have hrange : isRangeError e = false := by
        cases e with
        | indexOutOfRange i length => exact absurd ⟨i, length, w', hwalk⟩ (h.resolve_left hindex)
        | _ => rfl
      rwa [withDefault, hrange] at hresult

/-- A sequence that cannot be realized counts as one that has no element at the index, because its
producer fails with a range error. -/
theorem tryNth_hides_range_error :
    let producer : Native := fun _ => .fail (.indexOutOfRange 7 (some 3))
    let w : World := { lazies := ⟨#[.pending (.proc ⟨"p", 0⟩) []]⟩, natives := ⟨#[producer]⟩ }
    (∃ w', Walk (Machine.force 2) (.lazy 0 .plain) 0 w (.error (.indexOutOfRange 7 (some 3))) w' ∧
      ComesTo (Seq.tryNth (Machine.force 2) · (.lazy 0 .plain) 0 .nil) w (.ok .nil) w') ∧
    ¬DefaultsOutOfRange (Machine.force 2) (.lazy 0 .plain) 0 .nil w := by
  intro producer w
  have hwalk : Walk (Machine.force 2) (.lazy 0 .plain) 0 w (.error (.indexOutOfRange 7 (some 3)))
      { w with productions := [0] } := .broken (.broken rfl)
  have hzero : ¬(0 : Int64) < 0 := by decide
  have hdefault := Walk.tryNth hzero hwalk .nil
  refine ⟨⟨_, hwalk, hdefault⟩, fun h => ?_⟩
  cases (h.broken hzero hwalk).unique hdefault

end Seq

end LispKernel
