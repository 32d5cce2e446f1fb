import LispKernel.Machine
import LispKernel.Proofs.Equality.Strict

/-!
# Failures that a comparison hides

Where one sequence has ended and the other cannot go on, and where keys are looked up in a map, a
comparison takes a failed realization for a difference. An answer of the comparison that was reached
without a failure is the answer of the strict comparison, and an error is one that was met. So the
comparison reports what it meets exactly where its answer, if it has one, is the strict one.
-/
namespace LispKernel

variable {α β : Type} {force : Force}

namespace Run

/-- How the outcome of a run stands to a strict run: both give the same value and no failure was
met, or a failure was met, the strict run gives no value and an error is one that was met. -/
inductive Judged (force : Force) (x y : Force → Run α) (w : World) :
    Except Error α → World → Prop where
  | clean {a : α} {w' : World} : y force w = some (.ok a, w') →
      (∀ e, x (force.barring e) w = some (.ok a, w')) → Judged force x y w (.ok a) w'
  | met {r : Except Error α} {w' : World} : (∀ a v, y force w ≠ some (.ok a, v)) →
      (∃ e, x (force.barring e) w = none) → (∀ e, r = .error e → x (force.barring e) w = none) →
      Judged force x y w r w'

/-- The run ends as a strict run does, unless it hides a failure. -/
structure Tracks (force : Force) (x y : Force → Run α) : Prop where
  refines (e : Error) : Refines (fun _ _ => True) (x (force.barring e)) (x force)
  judged {w : World} {r : Except Error α} {w' : World} :
    x force w = some (r, w') → Judged force x y w r w'

theorem Honest.judged {x : Force → Run α} (hx : Honest force x) {w : World} {r : Except Error α}
    {w' : World} (hrun : x force w = some (r, w')) : Judged force x x w r w' := by
  cases r with
  | ok a => exact .clean hrun fun e => (hx w _ w' hrun e).2 (by simp)
  | error e' =>
    have hnone := (hx w _ w' hrun e').1 rfl
    refine .met (fun a v h => ?_) ⟨e', hnone⟩ ?_
    · rw [hrun] at h
      cases h
    · intro e he
      cases he
      exact hnone

theorem bind_ne_ok {x : Run α} {f : α → Run β} {w : World} (h : ∀ a v, x w ≠ some (.ok a, v))
    (b : β) (v : World) : (x >>= f) w ≠ some (.ok b, v) := by
  intro hb
  obtain ⟨a, u, ha, -⟩ := bind_eq_ok.1 hb
  exact h a u ha

theorem Tracks.bind {x y : Force → Run α} {f g : α → Force → Run β} (hx : Tracks force x y)
    (hf : ∀ a, Tracks force (f a) (g a)) :
    Tracks force (fun φ => x φ >>= fun a => f a φ) (fun φ => y φ >>= fun a => g a φ) where
  refines e := Refines.any.bind (hx.refines e) fun a => (hf a).refines e
  judged {w r w'} hrun := by
    rcases hout : x force w with _ | ⟨e | a, v⟩
    · cases (bind_of_none hout).symm.trans hrun
    · cases (bind_of_error hout).symm.trans hrun
      cases hx.judged hout with
      | met hno hsome hall =>
        refine .met (bind_ne_ok hno) ?_ fun e' he => bind_of_none (hall e' ?_)
        · obtain ⟨e', he'⟩ := hsome
          exact ⟨e', bind_of_none he'⟩
        · simpa using he
    · have hrest : f a force v = some (r, w') := (bind_of_ok hout).symm.trans hrun
      cases hx.judged hout with
      | clean hy hbarred =>
        cases (hf a).judged hrest with
        | clean hg hkeep =>
          exact .clean ((bind_of_ok hy).trans hg) fun e =>
            (bind_of_ok (hbarred e)).trans (hkeep e)
        | met hno hsome hall =>
          refine .met (fun b u h => hno b u ((bind_of_ok hy).symm.trans h)) ?_ ?_
          · obtain ⟨e, he⟩ := hsome
            exact ⟨e, (bind_of_ok (hbarred e)).trans he⟩
          · exact fun e he => (bind_of_ok (hbarred e)).trans (hall e he)
      | met hno hsome _ =>
        refine .met (bind_ne_ok hno) ?_ fun e he => ?_
        · obtain ⟨e, he⟩ := hsome
          exact ⟨e, bind_of_none he⟩
        -- the first part has no outcome or its old one, and then the error is met in the rest
        · rcases hbarred : x (force.barring e) w with _ | ⟨t, u⟩
          · exact bind_of_none hbarred
          · cases hout.symm.trans ((hx.refines e) _ _ _ hbarred).1
            refine (bind_of_ok hbarred).trans ?_
            cases (hf a).judged hrest with
            | clean => cases he
            | met _ _ hall => exact hall e he

theorem barring_refines (force : Force) (e : Error) (cell : LazyRef) :
    Refines (fun _ _ => True) (force.barring e cell) (force cell) := by
  intro w r w' h
  refine ⟨?_, trivial⟩
  unfold Force.barring at h
  split at h
  · split at h
    · cases h
    · cases h
      assumption
  · exact h

theorem tracks_chaining (force : Force) : Chaining fun _ => Tracks force where
  exhausted := ⟨fun _ => Refines.any.exhausted _, (honest_chaining force).exhausted.judged⟩
  pure a := ⟨fun _ => Refines.any.pure a, ((honest_chaining force).pure a).judged⟩
  freshStorage := ⟨fun _ => Refines.any.freshStorage, (honest_chaining force).freshStorage.judged⟩
  realize cell := ⟨fun e => barring_refines force e cell, (honest_realize cell).judged⟩
  bind := Tracks.bind

/-- A failure that is taken for a difference was met. -/
theorem Tracks.lenient {x y : Force → Run Bool} (hx : Tracks force x y) :
    Tracks force (fun φ => (x φ).lenient) y where
  refines e := Refines.any.lenient (hx.refines e)
  judged {w r w'} hrun := by
    have hnone {e : Error} (h : x (force.barring e) w = none) :
        (x (force.barring e)).lenient w = none := by rw [Run.lenient, h]
    rcases hout : x force w with _ | ⟨e | b, v⟩ <;> simp only [Run.lenient, hout] at hrun <;>
      cases hrun
    · cases hx.judged hout with
      | met hno hsome _ =>
        obtain ⟨e', he'⟩ := hsome
        exact .met hno ⟨e', hnone he'⟩ fun _ h => nomatch h
    · cases hx.judged hout with
      | clean hy hbarred => exact .clean hy fun e' => by simp only [Run.lenient, hbarred e']
      | met hno hsome _ =>
        obtain ⟨e', he'⟩ := hsome
        exact .met hno ⟨e', hnone he'⟩ fun _ h => nomatch h

/-- The value of the run, if it has one, is that of the strict run. -/
def StrictAnswer (force : Force) (x y : Force → Run α) (w : World) : Prop :=
  ∀ a w', x force w = some (.ok a, w') → y force w = some (.ok a, w')

/-- A failure is never hidden behind a value exactly where the value is that of the strict run. -/
theorem Tracks.strictAnswer_iff {x y : Force → Run α} (h : Tracks force x y) {w : World} :
    (∀ e, Meets x force e w → ∃ e' w', x force w = some (.error e', w') ∧ Meets x force e' w) ↔
      StrictAnswer force x y w := by
  constructor
  · intro hreports a w' hrun
    cases h.judged hrun with
    | clean hy _ => exact hy
    | met _ hsome _ =>
      obtain ⟨e, he⟩ := hsome
      obtain ⟨e', v, herror, -⟩ := hreports e ⟨⟨_, _, hrun⟩, he⟩
      cases hrun.symm.trans herror
  · rintro hstrict e ⟨⟨r, w', hrun⟩, hnone⟩
    cases h.judged hrun with
    | clean _ hkeep => cases hnone.symm.trans (hkeep e)
    | met hno _ hall =>
      cases r with
      | ok a => exact absurd (hstrict a w' hrun) (hno a w')
      | error e' => exact ⟨e', w', hrun, ⟨_, _, hrun⟩, hall e' rfl⟩

section Both

variable {γ : Type} {x : Run α} {y : Run β} {k : Except Error α → Except Error β → Run γ}
  {w v u : World} {r : Except Error α} {t : Except Error β}

/-- Two runs are made, and only then is it looked at whether they failed. -/
def both (x : Run α) (y : Run β) (k : Except Error α → Except Error β → Run γ) : Run γ := do
  let a ← x.attempt
  let b ← y.attempt
  k a b

theorem both_of_some (hx : x w = some (r, v)) (hy : y v = some (t, u)) :
    both x y k w = k r t u := by
  have ha : x.attempt w = some (.ok r, v) := by rw [Run.attempt, hx]
  have hb : y.attempt v = some (.ok t, u) := by rw [Run.attempt, hy]
  exact (bind_of_ok ha).trans (bind_of_ok hb)

theorem both_of_none (h : x w = none ∨ ∃ r v, x w = some (r, v) ∧ y v = none) :
    both x y k w = none := by
  rcases h with hx | ⟨r, v, hx, hy⟩
  · have ha : x.attempt w = none := by rw [Run.attempt, hx]
    exact bind_of_none ha
  · have ha : x.attempt w = some (.ok r, v) := by rw [Run.attempt, hx]
    have hb : y.attempt v = none := by rw [Run.attempt, hy]
    exact (bind_of_ok ha).trans (bind_of_none hb)

end Both

/-- Two honest runs that are both made meet the failure of either. -/
theorem Tracks.both {γ : Type} {x : Force → Run α} {y : Force → Run β}
    {k : Except Error α → Except Error β → Force → Run γ} {g : α → β → Force → Run γ}
    (hx : Honest force x) (hy : Honest force y)
    (hx' : ∀ e, Refines (fun _ _ => True) (x (force.barring e)) (x force))
    (hy' : ∀ e, Refines (fun _ _ => True) (y (force.barring e)) (y force))
    (hg : ∀ a b, Tracks force (k (.ok a) (.ok b)) (g a b))
    (hk : ∀ r t, (¬∃ a b, r = .ok a ∧ t = .ok b) → ∃ result, k r t = (fun _ => .ofExcept result) ∧
      ∀ e, result = .error e → r = .error e ∨ t = .error e) :
    Tracks force (fun φ => Run.both (x φ) (y φ) fun a b => k a b φ)
      (fun φ => x φ >>= fun a => y φ >>= fun b => g a b φ) where
  refines e := by
    refine Refines.any.bind (Refines.any.attempt (hx' e)) fun r =>
      Refines.any.bind (Refines.any.attempt (hy' e)) fun t => ?_
    by_cases hok : ∃ a b, r = .ok a ∧ t = .ok b
    · obtain ⟨a, b, rfl, rfl⟩ := hok
      exact (hg a b).refines e
    · obtain ⟨result, hresult, -⟩ := hk r t hok
      show Refines _ (k r t (force.barring e)) (k r t force)
      rw [hresult]
      exact Refines.any.ofExcept result
  judged {w result w'} hrun := by
    rcases hr : x force w with _ | ⟨r, v⟩
    · cases (both_of_none (.inl hr)).symm.trans hrun
    rcases ht : y force v with _ | ⟨t, u⟩
    · cases (both_of_none (.inr ⟨r, v, hr, ht⟩)).symm.trans hrun
    have hrest : k r t force u = some (result, w') := (both_of_some hr ht).symm.trans hrun
    by_cases hok : ∃ a b, r = .ok a ∧ t = .ok b
    · obtain ⟨a, b, rfl, rfl⟩ := hok
      have hbarred (e : Error) : Run.both (x (force.barring e)) (y (force.barring e))
          (fun a b => k a b (force.barring e)) w = k (.ok a) (.ok b) (force.barring e) u :=
        both_of_some ((hx _ _ _ hr e).2 (by simp)) ((hy _ _ _ ht e).2 (by simp))
      have hstrict : (x force >>= fun a => y force >>= fun b => g a b force) w = g a b force u :=
        (bind_of_ok hr).trans (bind_of_ok ht)
      cases (hg a b).judged hrest with
      | clean hgood hkeep =>
        exact .clean (hstrict.trans hgood) fun e => (hbarred e).trans (hkeep e)
      | met hno hsome hall =>
        refine .met (fun c q h => hno c q (hstrict.symm.trans h)) ?_ fun e he =>
          (hbarred e).trans (hall e he)
        obtain ⟨e, he⟩ := hsome
        exact ⟨e, (hbarred e).trans he⟩
    · obtain ⟨result', hresult, herror⟩ := hk r t hok
      rw [hresult] at hrest
      cases hrest
      have hmet {e : Error} (he : r = .error e ∨ t = .error e) :
          Run.both (x (force.barring e)) (y (force.barring e))
            (fun a b => k a b (force.barring e)) w = none := by
        apply both_of_none
        by_cases hre : r = .error e
        · exact .inl ((hx _ _ _ hr e).1 hre)
        · exact .inr ⟨r, v, (hx _ _ _ hr e).2 hre, (hy _ _ _ ht e).1 (he.resolve_left hre)⟩
      refine .met ?_ ?_ fun e he => hmet (herror e he)
      · intro c q hstrict
        obtain ⟨a, v', ha, hb⟩ := bind_eq_ok.1 hstrict
        cases hr.symm.trans ha
        obtain ⟨b, u', hb, -⟩ := bind_eq_ok.1 hb
        cases ht.symm.trans hb
        exact hok ⟨a, b, rfl, rfl⟩
      · cases r with
        | error e => exact ⟨e, hmet (.inl rfl)⟩
        | ok a =>
          cases t with
          | error e => exact ⟨e, hmet (.inr rfl)⟩
          | ok b => exact absurd ⟨a, b, rfl, rfl⟩ hok

end Run

open Run (Tracks tracks_chaining honest_chaining)

section Comparing

variable {eq eq' : Force → Comparison}
  (heq : ∀ a b, Tracks force (fun φ => eq φ a b) (fun φ => eq' φ a b))

include heq

theorem Seq.equal_tracks (n : Nat) (s t : Seq) :
    Tracks force (fun φ => s.equal φ (eq φ) n t) (fun φ => s.equalStrictly φ (eq' φ) n t) := by
  induction n generalizing s t with
  | zero => exact (tracks_chaining force).exhausted
  | succ n ih =>
    have hnext (u : Seq) : Tracks force (fun φ => u.next φ n) (fun φ => u.next φ n) :=
      next_chain (tracks_chaining force) n u
    refine Tracks.both (next_chain (honest_chaining force) n s)
      (next_chain (honest_chaining force) n t) (hnext s).refines (hnext t).refines ?_ ?_
    · intro a b
      rcases a with _ | ⟨x, s'⟩ <;> rcases b with _ | ⟨y, t'⟩
      case some.some =>
        refine (heq x y).bind fun same => ?_
        cases same
        · exact (tracks_chaining force).pure false
        · exact ih s' t'
      all_goals exact (tracks_chaining force).pure _
    · intro r t hok
      rcases r with e | _ | ⟨x, s'⟩ <;> rcases t with e' | _ | ⟨y, t'⟩
      · exact ⟨.error e, rfl, fun _ h => .inl (by simpa using h)⟩
      · exact ⟨.ok false, rfl, fun _ h => nomatch h⟩
      · exact ⟨.error e, rfl, fun _ h => .inl (by simpa using h)⟩
      · exact ⟨.ok false, rfl, fun _ h => nomatch h⟩
      · exact absurd ⟨_, _, rfl, rfl⟩ hok
      · exact absurd ⟨_, _, rfl, rfl⟩ hok
      · exact ⟨.error e', rfl, fun _ h => .inr (by simpa using h)⟩
      · exact absurd ⟨_, _, rfl, rfl⟩ hok
      · exact absurd ⟨_, _, rfl, rfl⟩ hok

theorem Dict.equal_tracks (m other : Dict) :
    Tracks force (fun φ => m.equal (eq φ) other) (fun φ => m.equalStrictly (eq' φ) other) := by
  have hget (key : Value) :
      Tracks force (fun φ => other.get (eq φ) key) (fun φ => other.tryGet (eq' φ) key) :=
    tryGet_chain (tracks_chaining force) (fun a b => (heq a b).lenient) other key
  have hwithin (entries : List (Value × Value)) :
      Tracks force (fun φ => within (eq φ) other entries)
        (fun φ => withinStrictly (eq' φ) other entries) := by
    induction entries with
    | nil => exact (tracks_chaining force).pure true
    | cons entry entries ih =>
      refine (hget entry.1).bind fun found => ?_
      rcases found with _ | found
      · exact (tracks_chaining force).pure false
      · refine (heq found entry.2).bind fun same => ?_
        cases same
        · exact (tracks_chaining force).pure false
        · exact ih
  unfold Dict.equal Dict.equalStrictly
  split
  · exact (tracks_chaining force).pure true
  · split
    · exact (tracks_chaining force).pure false
    · exact hwithin m.entries

end Comparing

namespace Value

theorem equals_tracks (force : Force) (n : Nat) (a b : Value) :
    Tracks force (fun φ => a.equals φ n b) (fun φ => a.equalsStrictly φ n b) := by
  have hchain := tracks_chaining force
  induction n generalizing a b with
  | zero => exact hchain.exhausted
  | succ n ih =>
    cases a <;> cases b
    case vector.vector v other => exact v.equal_chain hchain ih other
    case vector.seq v t => exact Seq.equal_tracks ih n _ t
    case seq.vector s v => exact Seq.equal_tracks ih n s _
    case seq.seq s t =>
      simp only [equals, equalsStrictly]
      split
      · exact hchain.pure true
      · exact Seq.equal_tracks ih n s t
    case map.map m other => exact m.equal_tracks ih other
    case set.set s other => exact s.equal_chain hchain ih other
    all_goals exact hchain.pure _

open Run (Meets Reports StrictAnswer)

/-- The strict comparison reports every failure that it meets. The comparison does not answer where
it meets a failure exactly if its answer, where it has one, is the strict one; it reports every
failure exactly if, moreover, it does not meet different ones. -/
theorem equals_reports_iff (force : Force) (n : Nat) (a b : Value) (w : World) :
    Reports (fun φ => a.equalsStrictly φ n b) force w ∧
    ((∀ e, Meets (fun φ => a.equals φ n b) force e w →
        ∃ e' w', a.equals force n b w = some (.error e', w') ∧
          Meets (fun φ => a.equals φ n b) force e' w) ↔
      StrictAnswer force (fun φ => a.equals φ n b) (fun φ => a.equalsStrictly φ n b) w) ∧
    (Reports (fun φ => a.equals φ n b) force w ↔
      StrictAnswer force (fun φ => a.equals φ n b) (fun φ => a.equalsStrictly φ n b) w ∧
        ∀ e e', Meets (fun φ => a.equals φ n b) force e w →
          Meets (fun φ => a.equals φ n b) force e' w → e = e') := by
  have hanswer := (equals_tracks force n a b).strictAnswer_iff (w := w)
  refine ⟨fun e he => (equalsStrictly_honest force n a b).meets_iff.1 he, hanswer, ?_, ?_⟩
  · intro hreports
    refine ⟨hanswer.1 fun e he => ?_, fun e e' he he' => ?_⟩
    · obtain ⟨w', hrun⟩ := hreports e he
      exact ⟨e, w', hrun, he⟩
    · obtain ⟨v, hrun⟩ := hreports e he
      obtain ⟨v', hrun'⟩ := hreports e' he'
      cases hrun.symm.trans hrun'
      rfl
  · rintro ⟨hstrict, hunique⟩ e he
    obtain ⟨e', w', hrun, he'⟩ := hanswer.2 hstrict e he
    exact ⟨w', hunique e e' he he' ▸ hrun⟩

/-- A sequence that has ended is told from one that cannot go on, and a map whose key cannot be
compared from another one, as if nothing had failed. -/
theorem equals_hides_failure :
    let producer : Native := fun _ => .fail (.malformedInput "boom")
    let w : World := { lazies := ⟨#[.pending (.proc ⟨"p", 0⟩) []]⟩, natives := ⟨#[producer]⟩,
                       storages := 3 }
    let broken : Value := .seq (.lazy 0 .plain)
    let ended : Value := .seq (.empty .plain)
    let single : Value := .seq (.cons 2 .nil (.empty .plain) .plain)
    let keyed (storage : Storage) (key : Value) : Value := .map ⟨storage, [(key, .nil)], .plain⟩
    (∃ w', ended.equals (Machine.force 2) 4 broken w = some (.ok false, w') ∧
      ¬Reports (fun φ => ended.equals φ 4 broken) (Machine.force 2) w) ∧
    ∃ w', (keyed 0 broken).equals (Machine.force 2) 6 (keyed 1 single) w = some (.ok false, w') ∧
      ¬Reports (fun φ => (keyed 0 broken).equals φ 6 (keyed 1 single)) (Machine.force 2) w := by
  intro producer w broken ended single keyed
  refine ⟨⟨_, rfl, fun h => ?_⟩, ⟨_, rfl, fun h => ?_⟩⟩
  · obtain ⟨w', hrun⟩ := h (.malformedInput "boom") ⟨⟨_, _, rfl⟩, rfl⟩
    cases hrun
  · obtain ⟨w', hrun⟩ := h (.malformedInput "boom") ⟨⟨_, _, rfl⟩, rfl⟩
    cases hrun

end Value

end LispKernel
