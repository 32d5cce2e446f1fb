import LispKernel.Proofs.Refinement.Machine

/-!
# Lazy cells remember

Whatever the machine does, with producers that fail, return what has no elements or look at the very
cell they produce, a lazy cell waits until it is realized once and then stays as it is. The world
lists the calls that cells have made, so that "no call again" is a statement about the list.
-/
namespace LispKernel

open Run (Refines)

/-- What may become of lazy cells while those listed make their calls: a realized cell stays as it
is and makes no call, a pending cell stays pending or is realized after a call of its own. -/
structure Evolution (made : List LazyRef) (w w' : World) : Prop where
  productions : w'.productions = made ++ w.productions
  realized {cell : LazyRef} {s : Seq} : w.lazies.get? cell = some (.realized s) →
    w'.lazies.get? cell = some (.realized s) ∧ cell ∉ made
  pending {cell : LazyRef} {callee : Value} {args : List Value} :
    w.lazies.get? cell = some (.pending callee args) →
    w'.lazies.get? cell = some (.pending callee args) ∨
      ∃ s, w'.lazies.get? cell = some (.realized s) ∧ cell ∈ made

def Evolves (w w' : World) : Prop := ∃ made, Evolution made w w'

namespace Evolution

variable {made made' : List LazyRef} {u v w : World}

theorem unchanged (hlazies : v.lazies = w.lazies) (hproductions : v.productions = w.productions) :
    Evolution [] w v where
  productions := hproductions
  realized h := ⟨hlazies ▸ h, by simp⟩
  pending h := .inl (hlazies ▸ h)

theorem trans (h : Evolution made u v) (h' : Evolution made' v w) :
    Evolution (made' ++ made) u w where
  productions := by rw [h'.productions, h.productions, List.append_assoc]
  realized hcell := by
    obtain ⟨hv, hmade⟩ := h.realized hcell
    obtain ⟨hw, hmade'⟩ := h'.realized hv
    exact ⟨hw, by simp [hmade, hmade']⟩
  pending hcell := by
    rcases h.pending hcell with hv | ⟨s, hv, hmade⟩
    · rcases h'.pending hv with hw | ⟨s, hw, hmade'⟩
      · exact .inl hw
      · exact .inr ⟨s, hw, by simp [hmade']⟩
    · exact .inr ⟨s, (h'.realized hv).1, by simp [hmade]⟩

theorem suspend (w : World) (callee : Value) (args : List Value) :
    Evolution [] w { w with lazies := w.lazies.push (.pending callee args) } := by
  have hkept {cell : LazyRef} {state : LazyCell} (h : w.lazies.get? cell = some state) :
      (w.lazies.push (.pending callee args)).get? cell = some state := by
    have := Heap.lt_size_of_get? h
    rw [Heap.get?_push, if_neg (by omega), h]
  exact ⟨rfl, fun h => ⟨hkept h, by simp⟩, fun h => .inl (hkept h)⟩

theorem start {cell : LazyRef} {callee : Value} {args : List Value}
    (h : w.lazies.get? cell = some (.pending callee args)) :
    Evolution [cell] w { w with productions := cell :: w.productions } where
  productions := rfl
  realized {other s} hother := by
    refine ⟨hother, fun hmem => ?_⟩
    rw [List.mem_singleton.1 hmem, h] at hother
    cases hother
  pending hother := .inl hother

/-- The cell that has made its call is filled, and no other cell is touched. -/
theorem fill {cell : LazyRef} {callee : Value} {args : List Value} (s : Seq)
    (hcell : w.lazies.get? cell = some (.pending callee args))
    (h : Evolution made { w with productions := cell :: w.productions } v)
    (hfresh : ∀ t, v.lazies.get? cell ≠ some (.realized t)) :
    Evolution (made ++ [cell]) w { v with lazies := v.lazies.set cell (.realized s) } := by
  have hv : v.lazies.get? cell = some (.pending callee args) := by
    rcases h.pending hcell with hv | ⟨t, hv, -⟩
    · exact hv
    · exact absurd hv (hfresh t)
  have hset (other : LazyRef) : (v.lazies.set cell (.realized s)).get? other =
      if cell = other then some (.realized s) else v.lazies.get? other := by
    simp [Heap.get?_set, Heap.lt_size_of_get? hv]
  constructor
  · rw [h.productions, List.append_assoc]
    rfl
  · intro other t hother
    have hne : cell ≠ other := by
      rintro rfl
      rw [hcell] at hother
      cases hother
    obtain ⟨hkept, hmade⟩ := h.realized hother
    refine ⟨by rw [hset, if_neg hne, hkept], ?_⟩
    simp [hmade, Ne.symm hne]
  · intro other f xs hother
    by_cases hne : cell = other
    · exact .inr ⟨s, by rw [hset, if_pos hne], by simp [hne]⟩
    · rcases h.pending hother with hkept | ⟨t, hkept, hmade⟩
      · exact .inl (by rw [hset, if_neg hne, hkept])
      · exact .inr ⟨t, by rw [hset, if_neg hne, hkept], by simp [hmade]⟩

end Evolution

/-- Everything that the machine does lets cells evolve. -/
theorem evolves_steps : Steps Evolves where
  refl _ := ⟨[], .unchanged rfl rfl⟩
  trans := fun ⟨_, h⟩ ⟨_, h'⟩ => ⟨_, h.trans h'⟩
  storage _ := ⟨[], .unchanged rfl rfl⟩
  frame _ _ := ⟨[], .unchanged rfl rfl⟩
  vars _ _ := ⟨[], .unchanged rfl rfl⟩
  namespaces _ _ := ⟨[], .unchanged rfl rfl⟩
  registries _ _ := ⟨[], .unchanged rfl rfl⟩
  counters _ _ := ⟨[], .unchanged rfl rfl⟩
  log _ _ := ⟨[], .unchanged rfl rfl⟩
  suspend w callee args := ⟨[], .suspend w callee args⟩
  start h := ⟨_, .start h⟩
  fill s h := fun ⟨_, h'⟩ hfresh => ⟨_, .fill s h h' hfresh⟩
  nested := fun ⟨made, h⟩ => ⟨made, h.productions, h.realized, h.pending⟩

/-! ## Observations -/

/-- Ways to look at sequences and values, and with them at the lazy cells that occur there. A copy
of a lazy sequence with other metadata has the same cell. -/
inductive Observation where
  | first (s : Seq)
  | rest (s : Seq)
  | isEmpty (s : Seq)
  | count (s : Seq)
  | nth (s : Seq) (index : Int64)
  | next (c : Seq.Cursor)
  | toList (s : Seq)
  | equals (a b : Value)
  | hash (v : Value)
  | render (v : Value) (escape : Bool)
  | withMeta (v : Value) (metadata : Dict)
  | realize (cell : LazyRef)

namespace Observation

section

-- How a single thing is hashed.
variable (single : Identity → UInt32)

/-- Makes the observation; only whether it fails is told. -/
def run (n : Nat) : Observation → Run Unit
  | first s => do let _ ← s.first (Machine.force n) n
  | rest s => do let _ ← s.rest (Machine.force n) n
  | isEmpty s => do let _ ← s.isEmpty (Machine.force n) n
  | count s => do let _ ← s.count (Machine.force n) n
  | nth s index => do let _ ← s.nth (Machine.force n) n index
  | next c => do let _ ← c.next (Machine.force n) n
  | toList s => do let _ ← s.toList (Machine.force n) n
  | equals a b => do let _ ← a.equals (Machine.force n) n b
  | hash v => do let _ ← v.hash (Machine.force n) single n
  | render v escape => do let _ ← v.render (Machine.force n) escape n
  | withMeta v metadata => do let _ ← v.withMeta (Value.equals (Machine.force n) n) metadata
  | realize cell => do let _ ← Machine.force n cell

/-- Observations one after another, each with its own fuel, whether those before failed or not. -/
def runAll : List (Nat × Observation) → Run Unit
  | [] => return ()
  | (n, o) :: history => do
    let _ ← (o.run single n).attempt
    runAll history

theorem run_evolves (n : Nat) (o : Observation) :
    Refines Evolves (o.run single n) (o.run single n) := by
  have hQ := Refines.congruence evolves_steps.change
  have hn := Nat.le_refl n
  have hforce := (Machine.refines evolves_steps hn).2.2
  have heq := Value.equals_congr hQ hforce hn
  cases o with
  | first s => exact hQ.bind (Seq.first_congr hQ hforce hn s) fun _ => hQ.pure _
  | rest s => exact hQ.bind (Seq.rest_congr hQ hforce hn s) fun _ => hQ.pure _
  | isEmpty s => exact hQ.bind (Seq.isEmpty_congr hQ hforce hn s) fun _ => hQ.pure _
  | count s => exact hQ.bind (Seq.countFrom_congr hQ hforce hn 0 s) fun _ => hQ.pure _
  | nth s index =>
    exact hQ.bind (Seq.nth_congr hQ hforce hn s index) fun _ => hQ.pure _
  | next c => exact hQ.bind (Seq.Cursor.next_congr hQ hforce hn c) fun _ => hQ.pure _
  | toList s => exact hQ.bind (Seq.toList_congr hQ hforce hn s) fun _ => hQ.pure _
  | equals a b => exact hQ.bind (heq a b) fun _ => hQ.pure _
  | hash v =>
    exact hQ.bind (Value.hash_congr hQ hforce hn single v) fun _ => hQ.pure _
  | render v escape =>
    exact hQ.bind (Value.render_congr hQ hforce hn escape v) fun _ => hQ.pure _
  | withMeta v metadata =>
    exact hQ.bind (Value.withMeta_congr hQ heq v metadata) fun _ => hQ.pure _
  | realize cell => exact hQ.bind (hforce cell) fun _ => hQ.pure _

theorem runAll_evolves (history : List (Nat × Observation)) :
    Refines Evolves (runAll single history) (runAll single history) := by
  have hR := evolves_steps.change
  induction history with
  | nil => exact .pure hR _
  | cons step history ih => exact .bind hR (run_evolves single step.1 step.2).attempt fun _ => ih

end

end Observation

/-! ## Realizing a cell -/

namespace Machine

variable {n : Nat} {cell : LazyRef} {w w' : World}

/-- The call that the cell makes in this world looks at the cell again, and when the call ends the
cell holds the sequence already. -/
def Reentered (n : Nat) (cell : LazyRef) (callee : Value) (args : List Value) (w : World)
    (s : Seq) : Prop :=
  ∃ m r v made, n = m + 1 ∧
    call m callee args { w with productions := cell :: w.productions } = some (r, v) ∧
    v.productions = made ++ cell :: w.productions ∧ cell ∈ made ∧
    v.lazies.get? cell = some (.realized s)

/-- Storage may be taken, but no cell changes. -/
theorem sameCells : Change fun w w' : World => w'.lazies = w.lazies where
  refl _ := rfl
  trans h h' := h'.trans h
  storage _ := rfl

theorem call_evolves {f : Value} {args : List Value} {r : Except Error Value}
    (h : call n f args w = some (r, w')) : Evolves w w' :=
  ((refines evolves_steps (Nat.le_refl n)).2.1 f args _ _ _ h).2

/-- What a cell gives is what it holds from then on, even if its own call gave something else. -/
theorem force_ok {s : Seq} (hcell : cell < w.lazies.size)
    (h : force n cell w = some (.ok s, w')) : w'.lazies.get? cell = some (.realized s) := by
  cases n with
  | zero => cases h
  | succ n =>
    rw [force] at h
    rcases hstate : w.lazies.get? cell with _ | ⟨callee, args⟩ | t
    · exact absurd hcell (Nat.not_lt.2 (Heap.get?_eq_none_iff.1 hstate))
    · rw [LazyCell.realize_pending hstate] at h
      obtain ⟨value, v, hvalue, hkeep⟩ := Run.bind_eq_ok.1 h
      obtain ⟨made, hmade⟩ := call_evolves hvalue
      have hv : cell < v.lazies.size := by
        rcases hmade.pending hstate with hv | ⟨t, hv, -⟩ <;> exact Heap.lt_size_of_get? hv
      obtain ⟨u, hu, ⟨rfl, hkept⟩ | ⟨t, ht, -, rfl⟩⟩ := LazyCell.keep_cases sameCells hkeep
      · exact hkept s rfl
      · cases ht
        rw [Heap.get?_set, if_pos ⟨rfl, by rw [hu]; exact hv⟩]
    · rw [LazyCell.realize_realized hstate] at h
      cases h
      exact hstate

/-- A failure leaves the cell pending, unless it was realized in the course of its own call. -/
theorem force_error {e : Error} (h : force n cell w = some (.error e, w')) :
    ∃ callee args, w.lazies.get? cell = some (.pending callee args) ∧
      (w'.lazies.get? cell = some (.pending callee args) ∨
        ∃ s, w'.lazies.get? cell = some (.realized s) ∧ Reentered n cell callee args w s) := by
  cases n with
  | zero => cases h
  | succ n =>
    rw [force] at h
    rcases hstate : w.lazies.get? cell with _ | ⟨callee, args⟩ | t
    · rw [LazyCell.realize_none hstate] at h
      cases h
    · rw [LazyCell.realize_pending hstate] at h
      refine ⟨callee, args, rfl, ?_⟩
      -- The cell is after the failure what it was when its call ended.
      obtain ⟨r, v, hcall, hv⟩ : ∃ r v, call n callee args
          { w with productions := cell :: w.productions } = some (r, v) ∧ w'.lazies = v.lazies := by
        rcases Run.bind_eq_error.1 h with hfail | ⟨value, v, hvalue, hkeep⟩
        · exact ⟨_, _, hfail, rfl⟩
        · obtain ⟨u, hu, ⟨rfl, -⟩ | ⟨t, ht, -⟩⟩ := LazyCell.keep_cases sameCells hkeep
          · exact ⟨_, _, hvalue, hu⟩
          · cases ht
      obtain ⟨made, hmade⟩ := call_evolves hcall
      rw [hv]
      rcases hmade.pending hstate with hkept | ⟨s, hs, hmem⟩
      · exact .inl hkept
      · exact .inr ⟨s, hs, n, r, v, made, rfl, hcall, hmade.productions, hmem, hs⟩
    · rw [LazyCell.realize_realized hstate] at h
      cases h

end Machine

/-- After any history of observations a cell that was realized holds the same sequence and has made
no further call, and a pending one is pending or realized. Realizing a realized cell does nothing.
If realizing the cell fails, it was pending and still is, unless its own call has realized it; if it
succeeds, the result is what the cell holds. -/
theorem lazy_memoisation {single : Identity → UInt32} {history : List (Nat × Observation)}
    {w w' : World} {r : Except Error Unit} {cell : LazyRef} (hcell : cell < w.lazies.size)
    (hrun : Observation.runAll single history w = some (r, w')) :
    (∀ s, w.lazies.get? cell = some (.realized s) → w'.lazies.get? cell = some (.realized s) ∧
      w'.productions.count cell = w.productions.count cell) ∧
    (∀ callee args, w.lazies.get? cell = some (.pending callee args) →
      w'.lazies.get? cell = some (.pending callee args) ∨
        ∃ s, w'.lazies.get? cell = some (.realized s)) ∧
    (∀ n s, w'.lazies.get? cell = some (.realized s) →
      Machine.force (n + 1) cell w' = some (.ok s, w')) ∧
    (∀ n e v, Machine.force n cell w' = some (.error e, v) →
      ∃ callee args, w'.lazies.get? cell = some (.pending callee args) ∧
        (v.lazies.get? cell = some (.pending callee args) ∨ ∃ s,
          v.lazies.get? cell = some (.realized s) ∧ Machine.Reentered n cell callee args w' s)) ∧
    ∀ n s v, Machine.force n cell w' = some (.ok s, v) →
      v.lazies.get? cell = some (.realized s) := by
  obtain ⟨made, hmade⟩ := (Observation.runAll_evolves single history _ _ _ hrun).2
  refine ⟨fun s hs => ?_, fun callee args hpending => ?_, fun n s => LazyCell.realize_realized,
    fun n e v => Machine.force_error, fun n s v => Machine.force_ok ?_⟩
  · obtain ⟨hkept, hmem⟩ := hmade.realized hs
    refine ⟨hkept, ?_⟩
    rw [hmade.productions, List.count_append, List.count_eq_zero.2 hmem, Nat.zero_add]
  · exact (hmade.pending hpending).imp_right fun ⟨s, hs, _⟩ => ⟨s, hs⟩
  · rcases hstate : w.lazies.get? cell with _ | ⟨callee, args⟩ | s
    · exact absurd hcell (Nat.not_lt.2 (Heap.get?_eq_none_iff.1 hstate))
    · rcases hmade.pending hstate with hkept | ⟨s, hkept, -⟩ <;> exact Heap.lt_size_of_get? hkept
    · exact Heap.lt_size_of_get? (hmade.realized hstate).1

/-- A producer that fails at first, then looks at its own cell and fails after that succeeded. -/
theorem lazy_memoisation_reentrant :
    let late : Error := .malformedInput "late"
    let producer : Native := fun _ => do
      match ← Action.request (.tick 0) with
      | .int 0 => .fail (.malformedInput "early")
      | .int 1 =>
        let _ ← Action.request (.first (.lazy 0 .plain))
        .fail late
      | _ => return .nil
    let w : World := { lazies := ⟨#[.pending (.proc ⟨"p", 0⟩) []]⟩, natives := ⟨#[producer]⟩,
                       counters := ⟨#[0]⟩ }
    ∃ w' v s, 0 < w.lazies.size ∧
      Observation.runAll Identity.hash [(9, .first (.lazy 0 .plain))] w = some (.ok (), w') ∧
      w'.lazies.get? 0 = some (.pending (.proc ⟨"p", 0⟩) []) ∧
      Machine.force 9 0 w' = some (.error late, v) ∧ v.lazies.get? 0 = some (.realized s) ∧
      Machine.Reentered 9 0 (.proc ⟨"p", 0⟩) [] w' s := by
  intro late producer w
  obtain ⟨w', hrun, hpending, v, hforce, hv⟩ : ∃ w',
      Observation.runAll Identity.hash [(9, .first (.lazy 0 .plain))] w = some (.ok (), w') ∧
      w'.lazies.get? 0 = some (.pending (.proc ⟨"p", 0⟩) []) ∧ ∃ v,
      Machine.force 9 0 w' = some (.error late, v) ∧
      v.lazies.get? 0 = some (.realized (.empty .plain)) := ⟨_, rfl, rfl, _, rfl, rfl⟩
  have hsize : 0 < w.lazies.size := by decide
  obtain ⟨callee, args, hcell, hkept | ⟨s, hs, hreentered⟩⟩ :=
    (lazy_memoisation hsize hrun).2.2.2.1 9 late v hforce
  · rw [hv] at hkept
    cases hkept
  · rw [hpending] at hcell
    cases hcell
    exact ⟨w', v, s, hsize, hrun, hpending, hforce, hs, hreentered⟩

end LispKernel
