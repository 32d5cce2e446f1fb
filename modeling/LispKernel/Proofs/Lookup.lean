import LispKernel.Native.Stream
import LispKernel.Proofs.Outcome

/-!
# Strict and lenient lookup

A strict lookup stops at the first comparison that fails, a lenient one takes the failure for a
difference and goes on. Where the strict lookup has an answer no comparison has failed, so the
lenient one makes the same comparisons in the same worlds and has the same answer. This holds of
every comparison, whatever it realizes on the way, and of every operation that looks up.
-/
namespace LispKernel

open Run (bind_of_ok bind_eq_ok bind_eq_error)

namespace Run

variable {α β : Type}

/-- Whatever the first run succeeds with, the second succeeds with, and it leaves the same world. -/
def Follows (x y : Run α) : Prop :=
  ∀ w a w', x w = some (.ok a, w') → y w = some (.ok a, w')

theorem Follows.refl (x : Run α) : Follows x x := fun _ _ _ h => h

theorem Follows.bind {x y : Run α} {f g : α → Run β} (hx : Follows x y)
    (hf : ∀ a, Follows (f a) (g a)) : Follows (x >>= f) (y >>= g) := by
  intro w b w' h
  obtain ⟨a, v, ha, hb⟩ := bind_eq_ok.1 h
  rw [bind_of_ok (hx w a v ha)]
  exact hf a v b w' hb

theorem Follows.lenient (x : Run Bool) : Follows x x.lenient := by
  intro w b w' h
  rw [Run.lenient, h]

end Run

open Run (Follows)

theorem Comparison.lenient_follows (eq : Comparison) (a b : Value) :
    Follows (eq a b) (eq.lenient a b) := .lenient (eq a b)

variable {eq eq' : Comparison} {key value : Value} {w w' : World}

/-! ## Maps -/

namespace Dict

variable {m m' : Dict} {entries : List (Value × Value)}

theorem indexOf_follows (heq : ∀ a b, Follows (eq a b) (eq' a b)) (key : Value)
    (entries : List (Value × Value)) :
    Follows (indexOf eq key entries) (indexOf eq' key entries) := by
  induction entries with
  | nil => exact .refl _
  | cons entry entries ih =>
    apply Follows.bind (heq entry.1 key)
    intro found
    cases found with
    | true => exact .refl _
    | false => exact ih.bind fun _ => .refl _

theorem tryGet_follows (heq : ∀ a b, Follows (eq a b) (eq' a b)) (m : Dict) (key : Value) :
    Follows (m.tryGet eq key) (m.tryGet eq' key) :=
  (indexOf_follows heq key m.entries).bind fun _ => .refl _

/-- The place that a search gives is one of the entries. -/
theorem indexOf_lt (eq : Comparison) (key : Value) (entries : List (Value × Value)) :
    (indexOf eq key entries).Yields fun i => ∀ j ∈ i, j < entries.length := by
  induction entries with
  | nil => exact .pure (by simp)
  | cons entry entries ih =>
    refine .bind (.trivial _) fun found _ => ?_
    cases found with
    | true => exact .pure (by simp)
    | false =>
      refine ih.bind fun i hi => .pure ?_
      simpa using hi

/-- Nothing is read exactly if the search has found no place. -/
theorem tryGet_of_indexOf {i : Option Nat} (h : indexOf eq key m.entries w = some (.ok i, w')) :
    ∃ found, m.tryGet eq key w = some (.ok found, w') ∧ found.isSome = i.isSome := by
  refine ⟨i.bind m.valueAt?, bind_of_ok h, ?_⟩
  cases i with
  | none => rfl
  | some i =>
    have hlt : i < m.entries.length := (indexOf_lt eq key m.entries).of_ok h i rfl
    simp [valueAt?, hlt]

/-- Every way to look up a key gives what was found, and leaves the world that finding it has left,
but for the storage of a new entry. -/
structure Finds (eq : Comparison) (m : Dict) (key : Value) (w : World) (found : Option Value)
    (w' : World) : Prop where
  get : m.get eq key w = some (.ok found, w')
  containsKey : m.containsKey eq key w = some (.ok found.isSome, w')
  entryAt : ∃ entry v, m.entryAt eq key w = some (.ok entry, v) ∧ w'.Ahead v ∧
    entry.map Vec.items = found.map fun x => [key, x]
  call : m.call eq [key] w = some (.ok (found.getD .nil), w')
  add (value : Value) : ∃ added v, m.add? eq key value w = some (.ok added, v) ∧ w'.Ahead v ∧
    added.isSome = found.isNone

theorem finds_of_tryGet {found : Option Value} (h : m.tryGet eq key w = some (.ok found, w')) :
    m.Finds eq key w found w' := by
  have hget : m.get eq key w = some (.ok found, w') :=
    tryGet_follows eq.lenient_follows m key w found w' h
  constructor
  case get => exact hget
  case containsKey => exact bind_of_ok hget
  case call => exact bind_of_ok h
  case entryAt =>
    rw [entryAt, bind_of_ok hget]
    cases found with
    | none => exact ⟨none, w', rfl, .refl w', rfl⟩
    | some x => exact ⟨some ⟨⟨w'.storages, [key, x]⟩, .plain⟩, _, rfl, ⟨1, rfl⟩, rfl⟩
  case add =>
    intro value
    obtain ⟨i, v, hi, hfound⟩ := bind_eq_ok.1 h
    obtain ⟨found', hfound', hsome⟩ := tryGet_of_indexOf hi
    cases hfound'.symm.trans h
    rw [add?, bind_of_ok hi]
    cases i with
    | none => exact ⟨_, _, rfl, ⟨1, rfl⟩, by simpa using hsome⟩
    | some i => exact ⟨none, _, rfl, .refl _, by simpa using hsome⟩

/-- An entry that is added is the one that setting puts at the end, in the same storage. -/
theorem set_of_add (h : m.add? eq key value w = some (.ok (some m'), w')) :
    m.set eq key value w = some (.ok m', w') ∧ m'.entries = m.entries ++ [(key, value)] ∧
      ∃ v, m.tryGet eq key w = some (.ok none, v) ∧ v.Ahead w' := by
  obtain ⟨i, v, hi, hadd⟩ := bind_eq_ok.1 h
  cases i with
  | some i => cases hadd
  | none =>
    cases hadd
    have hlenient := indexOf_follows eq.lenient_follows key m.entries w none v hi
    refine ⟨?_, rfl, v, bind_of_ok hi, 1, rfl⟩
    rw [set, bind_of_ok hlenient]
    rfl

/-- An entry is refused where the key is found, and nothing else happens. -/
theorem tryGet_of_add_none (h : m.add? eq key value w = some (.ok none, w')) :
    ∃ x, m.tryGet eq key w = some (.ok (some x), w') := by
  obtain ⟨i, v, hi, hadd⟩ := bind_eq_ok.1 h
  cases i with
  | none => cases hadd
  | some i =>
    cases hadd
    obtain ⟨found, hfound, hsome⟩ := tryGet_of_indexOf hi
    obtain ⟨x, rfl⟩ := Option.isSome_iff_exists.1 hsome
    exact ⟨x, hfound⟩

theorem tryGet_eq_error_iff {e : Error} : m.tryGet eq key w = some (.error e, w') ↔
    indexOf eq key m.entries w = some (.error e, w') := by
  rw [tryGet, bind_eq_error]
  simp [pure, Run.pure]

theorem add?_eq_error_iff {e : Error} : m.add? eq key value w = some (.error e, w') ↔
    m.tryGet eq key w = some (.error e, w') := by
  rw [tryGet_eq_error_iff, add?, bind_eq_error]
  constructor
  · rintro (h | ⟨i, v, -, hadd⟩)
    · exact h
    · cases i <;> cases hadd
  · exact .inl

end Dict

/-! ## Sets -/

namespace ElemSet

variable {s s' : ElemSet} {x : Value}

theorem anyM_follows {p q : Value → Run Bool} (h : ∀ x, Follows (p x) (q x)) (items : List Value) :
    Follows (anyM p items) (anyM q items) := by
  induction items with
  | nil => exact .refl _
  | cons x items ih =>
    apply Follows.bind (h x)
    intro found
    cases found with
    | true => exact .refl _
    | false => exact ih

theorem tryContains_follows (heq : ∀ a b, Follows (eq a b) (eq' a b)) (s : ElemSet) (x : Value) :
    Follows (s.tryContains eq x) (s.tryContains eq' x) :=
  anyM_follows (fun item => heq item x) s.items

/-- Every way to ask for an element gives the answer and leaves the same world, and adding one gives
the set that putting it in gives. -/
structure Finds (eq : Comparison) (s : ElemSet) (x : Value) (w : World) (found : Bool)
    (w' : World) : Prop where
  contains : s.contains eq x w = some (.ok found, w')
  call : s.call eq [x] w = some (.ok (if found then x else .nil), w')
  add : ∃ added v, s.add? eq x w = some (.ok added, v) ∧ w'.Ahead v ∧
    s.conj eq x w = some (.ok (added.getD s), v) ∧
    added.map ElemSet.items = if found then none else some (s.items ++ [x])

theorem finds_of_tryContains {found : Bool} (h : s.tryContains eq x w = some (.ok found, w')) :
    s.Finds eq x w found w' := by
  have hcontains : s.contains eq x w = some (.ok found, w') :=
    tryContains_follows eq.lenient_follows s x w found w' h
  constructor
  case contains => exact hcontains
  case call => exact bind_of_ok h
  case add =>
    rw [add?, bind_of_ok h, conj, bind_of_ok hcontains]
    cases found with
    | true => exact ⟨none, w', rfl, .refl w', rfl, rfl⟩
    | false => exact ⟨some ⟨⟨w'.storages, s.items ++ [x]⟩, s.info⟩, _, rfl, ⟨1, rfl⟩, rfl, rfl⟩

theorem add?_eq_error_iff {e : Error} : s.add? eq x w = some (.error e, w') ↔
    s.tryContains eq x w = some (.error e, w') := by
  rw [add?, bind_eq_error]
  constructor
  · rintro (h | ⟨found, v, -, hadd⟩)
    · exact h
    · cases found <;> cases hadd
  · exact .inl

end ElemSet

/-- Where the strict lookup of a key in a map or a set has an answer, every other lookup from the
same world has the same answer and leaves the same world, and adding does what putting in does or
finds the key there. Where it fails, adding fails with the same error in the same world: no new map
or set is made, and no storage is taken. -/
theorem strict_lookup_agrees (force : Force) (n : Nat) (m : Dict) (s : ElemSet)
    (key value : Value) (w : World) :
    let eq := Value.equals force n
    (∀ found w', m.tryGet eq key w = some (.ok found, w') → m.Finds eq key w found w') ∧
    (∀ m' w', m.add? eq key value w = some (.ok (some m'), w') →
      m.set eq key value w = some (.ok m', w') ∧ m'.entries = m.entries ++ [(key, value)] ∧
        ∃ v, m.tryGet eq key w = some (.ok none, v) ∧ v.Ahead w') ∧
    (∀ w', m.add? eq key value w = some (.ok none, w') →
      ∃ x, m.tryGet eq key w = some (.ok (some x), w')) ∧
    (∀ e w', m.add? eq key value w = some (.error e, w') ↔
      m.tryGet eq key w = some (.error e, w')) ∧
    (∀ found w', s.tryContains eq key w = some (.ok found, w') → s.Finds eq key w found w') ∧
    ∀ e w', s.add? eq key w = some (.error e, w') ↔
      s.tryContains eq key w = some (.error e, w') := by
  intro eq
  refine ⟨?_, ?_, ?_, ?_, ?_, ?_⟩
  · intro found w' h
    exact Dict.finds_of_tryGet h
  · intro m' w' h
    exact Dict.set_of_add h
  · intro w' h
    exact Dict.tryGet_of_add_none h
  · intro e w'
    exact Dict.add?_eq_error_iff
  · intro found w' h
    exact ElemSet.finds_of_tryContains h
  · intro e w'
    exact ElemSet.add?_eq_error_iff

/-- A key whose cell cannot be realized at first and is then equal to the second key of a map that
has a NaN for its first. Another key is added after that. -/
theorem strict_lookup_agrees_flaky :
    let one : Value := .vector ⟨⟨1, [.int 1]⟩, .plain⟩
    let m : Dict := ⟨0, [(.double ⟨0x7ff8000000000000⟩, .int 7), (one, .int 2)], .plain⟩
    let s : ElemSet := ⟨⟨2, [one]⟩, .plain⟩
    let key : Value := .seq (.lazy 0 .plain)
    let early : Error := .malformedInput "early"
    let producer := Stream.scripted 0 1 (.lazy 0 .plain) [.fail early, .value one]
    let w : World := { lazies := ⟨#[.pending (.proc ⟨"p", 0⟩) []]⟩, natives := ⟨#[producer]⟩,
                       counters := ⟨#[0, 0]⟩, storages := 3 }
    let v : World := { w with counters := ⟨#[1, 1]⟩, productions := [0] }
    let shown : Seq := .view .vector 1 ⟨#[.int 1], 0⟩ .plain
    let v' : World := { v with lazies := ⟨#[.realized shown]⟩, counters := ⟨#[2, 2]⟩,
                               productions := [0, 0] }
    let m' : Dict := ⟨3, m.entries ++ [(.int 5, .nil)], .plain⟩
    let eq := Value.equals (Machine.force 9) 9
    (m.tryGet eq key w = some (.error early, v) ∧
      m.add? eq key .nil w = some (.error early, v)) ∧
    (s.tryContains eq key w = some (.error early, v) ∧
      s.add? eq key w = some (.error early, v)) ∧
    (m.tryGet eq key v = some (.ok (some (.int 2)), v') ∧ m.Finds eq key v (some (.int 2)) v') ∧
    (s.tryContains eq key v = some (.ok true, v') ∧ s.Finds eq key v true v') ∧
    m.add? eq (.int 5) .nil v' = some (.ok (some m'), { v' with storages := 4 }) ∧
    m.set eq (.int 5) .nil v' = some (.ok m', { v' with storages := 4 }) := by
  intro one m s key early producer w v shown v' m' eq
  have hmap : m.tryGet eq key w = some (.error early, v) := rfl
  have hset : s.tryContains eq key w = some (.error early, v) := rfl
  have hmap' : m.tryGet eq key v = some (.ok (some (.int 2)), v') := rfl
  have hset' : s.tryContains eq key v = some (.ok true, v') := rfl
  have hadd : m.add? eq (.int 5) .nil v' =
      some (.ok (some m'), { v' with storages := 4 }) := rfl
  obtain ⟨-, -, -, hfail, -, hfail'⟩ := strict_lookup_agrees (Machine.force 9) 9 m s key .nil w
  obtain ⟨hfinds, -, -, -, hfinds', -⟩ := strict_lookup_agrees (Machine.force 9) 9 m s key .nil v
  obtain ⟨-, hput, -⟩ := strict_lookup_agrees (Machine.force 9) 9 m s (.int 5) .nil v'
  exact ⟨⟨hmap, (hfail _ _).2 hmap⟩, ⟨hset, (hfail' _ _).2 hset⟩,
    ⟨hmap', hfinds _ _ hmap'⟩, ⟨hset', hfinds' _ _ hset'⟩, hadd, (hput _ _ hadd).1⟩

end LispKernel
