import LispKernel.Metadata
import LispKernel.Proofs.Refinement.Walk
import LispKernel.Proofs.Seq.Walk

/-!
# Sequences as lists of elements

However a sequence was reached, its views stay within what they are views of, and if no lazy cell
occurs in it, every operation on it is the operation on the list of its elements.
-/
namespace LispKernel.Seq

open List (Forall₂)
open Run (Settles Refines ReturnsIn Yields)
open Value (Copy LazyFree)

/-- The sequences that are reached from values, arrays and maps by the operations on sequences,
whatever is realized on the way. All maps are those of which `maps` holds. -/
inductive Reached (maps : Dict → Prop) : Seq → Prop where
  | ofValue {v : Value} {s : Seq} {w w' : World} :
      (∀ t, v = .seq t → Reached maps t) → (∀ m, v = .map m → maps m) →
      v.seq? w = some (.ok (some s), w') → Reached maps s
  | ofArray {items : List Value} {s : Seq} {w w' : World} :
      Seq.ofArray items w = some (.ok s, w') → Reached maps s
  | prepend {x : Value} {s t : Seq} {w w' : World} :
      Reached maps s → s.prepend x w = some (.ok t, w') → Reached maps t
  | rest {force : Force} {n : Nat} {s t : Seq} {w w' : World} : Reached maps s →
      (∀ cell u v t, force cell u = some (.ok t, v) → Reached maps t) →
      s.rest force n w = some (.ok t, w') → Reached maps t
  | withMeta {eq : Comparison} {metadata : Dict} {s t : Seq} {w w' : World} : Reached maps s →
      (Value.seq s).withMeta eq metadata w = some (.ok (.seq t), w') → Reached maps t
  | entrySeq {m : Dict} : maps m → Reached maps m.entrySeq
  | flatSeq {m : Dict} : maps m → Reached maps m.flatSeq

/-- The index of a view is not behind the end of its buffer. A view of entries is a view of the keys
and values of a map in turn, and its index is even. -/
def Placed (maps : Dict → Prop) : Seq → Prop
  | empty _ | lazy .. => True
  | cons _ _ rest _ => rest.Placed maps
  | view _ _ slice _ => slice.index ≤ slice.buffer.size
  | entries storage slice _ => slice.index ≤ slice.buffer.size ∧ 2 ∣ slice.index ∧
      ∃ m, maps m ∧ m.storage = storage ∧ slice.buffer.toList = m.flatten

variable {maps : Dict → Prop}

/-! ## Places -/

theorem placed_ofSlice (kind : ViewKind) (storage : Storage) (slice : Slice) :
    (ofSlice kind storage slice).Placed maps :=
  ofSlice_cases (fun hindex => Nat.le_of_lt hindex) fun _ => trivial

theorem placed_ofEntries {storage : Storage} {slice : EntrySlice} (heven : 2 ∣ slice.index)
    (hmap : ∃ m, maps m ∧ m.storage = storage ∧ slice.buffer.toList = m.flatten) :
    (ofEntries storage slice).Placed maps :=
  ofEntries_cases (fun hindex => ⟨Nat.le_of_lt hindex, heven, hmap⟩) fun _ => trivial

theorem Placed.withInfo {s : Seq} (h : s.Placed maps) (info : Info) :
    (s.withInfo info).Placed maps := by
  cases s <;> exact h

/-- A step keeps a view in its place: by one element in a buffer, by a key and a value in the buffer
of a map. -/
theorem rest_placed {force : Force} (hforce : ∀ cell, (force cell).Yields (Placed maps)) (n : Nat)
    {s : Seq} (hs : s.Placed maps) : (s.rest force n).Yields (Placed maps) := by
  induction n generalizing s with
  | zero => exact fun _ _ _ h => nomatch h
  | succ n ih =>
    cases s with
    | empty info => exact .pure trivial
    | cons cell x rest info => exact .pure hs
    | view kind storage slice info => exact .pure (placed_ofSlice kind storage slice.rest)
    | entries storage slice info =>
      obtain ⟨-, heven, hmap⟩ := hs
      have hnext : 2 ∣ slice.rest.index := Nat.dvd_add heven (Nat.dvd_refl 2)
      exact .pure (placed_ofEntries hnext hmap)
    | «lazy» cell info => exact .bind (hforce cell) fun t ht => ih ht

theorem ofArray_placed (items : List Value) : (ofArray items).Yields (Placed maps) :=
  .bind (.trivial _) fun _ _ => .pure (P := Placed maps) (Nat.zero_le _)

theorem seq?_placed {v : Value} (hseq : ∀ t, v = .seq t → t.Placed maps)
    (hmap : ∀ m, v = .map m → maps m) : v.seq?.Yields fun o => ∀ s ∈ o, s.Placed maps := by
  have hsome {s : Seq} (h : s.Placed maps) : ∀ t ∈ some s, t.Placed maps := by simpa using h
  unfold Value.seq?
  split
  case h_3 text _ => exact .bind (ofArray_placed _) fun s hs => .pure (hsome hs)
  case h_4 v => exact .pure (hsome (placed_ofSlice ..))
  case h_5 m =>
    exact .pure (hsome (placed_ofEntries (Nat.dvd_zero 2) ⟨m, hmap m rfl, rfl, rfl⟩))
  case h_6 s => exact .pure (hsome (placed_ofSlice ..))
  case h_7 s => exact .pure (hsome (hseq s rfl))
  case h_8 => exact .pure (by simp)
  all_goals exact .pure (hsome trivial)

theorem Reached.placed {s : Seq} (h : s.Reached maps) : s.Placed maps := by
  induction h with
  | ofValue _ hmap hrun ih => exact (seq?_placed ih hmap).of_ok hrun _ rfl
  | ofArray hrun => exact (ofArray_placed _).of_ok hrun
  | prepend _ hrun ih =>
    obtain ⟨_, _, -, ht⟩ := Run.bind_eq_ok.1 hrun
    cases ht
    exact ih
  | rest _ _ hrun ih hforce =>
    exact (rest_placed (fun cell u t v ht => hforce cell u v t ht) _ ih).of_ok hrun
  | withMeta _ hrun ih =>
    obtain ⟨info, _, -, ht⟩ := Run.bind_eq_ok.1 hrun
    cases ht
    exact ih.withInfo info
  | entrySeq hm => exact ⟨Nat.zero_le _, Nat.dvd_zero 2, _, hm, rfl, rfl⟩
  | flatSeq hm => exact Nat.zero_le _

/-! ## Operations -/

/-- Every operation on the sequence is the operation on the list of its elements. -/
structure ActsAsList (force : Force) (s : Seq) : Prop where
  isEmpty : Settles (fun n => s.isEmpty force n) fun b => b = true ↔ s.items = []
  first : Settles (fun n => s.first force n) (Copy · (s.items.headD .nil))
  rest : Settles (fun n => s.rest force n) (·.items = s.items.tail)
  prepend (x : Value) : (s.prepend x).Returns (·.items = x :: s.items)
  counted : s.counted = none ∨ s.counted = some s.items.length
  count : Settles (fun n => s.count force n) (· = s.items.length)
  toList : Settles (fun n => s.toList force n) (Forall₂ Copy · s.items)
  second : Settles (fun n => s.second force n) (Copy · (s.items.getD 1 .nil))
  third : Settles (fun n => s.third force n) (Copy · (s.items.getD 2 .nil))
  fourth : Settles (fun n => s.fourth force n) (Copy · (s.items.getD 3 .nil))
  nth_negative {index : Int64} : index < 0 → Settles (fun n => (s.nth force n index).attempt)
    (· = .error (.indexOutOfRange index none))
  nth_element {index : Int64} {y : Value} : 0 ≤ index → s.items[index.toInt.toNat]? = some y →
    Settles (fun n => (s.nth force n index).attempt) fun r => ∃ x, r = .ok x ∧ Copy x y
  nth_beyond {index : Int64} : s.items.length ≤ index.toInt →
    Settles (fun n => (s.nth force n index).attempt)
      (· = .error (.indexOutOfRange index (some s.items.length)))

section

variable (force : Force)

/-- An operation settles on what it returns where there are no cells to show. -/
theorem settles_of_walkable {α : Type} {x : Nat → Run α} {P : α → Prop} (N : Nat)
    (hx : ∀ {n m}, n ≤ m → Refines (fun _ _ => True) (x n) (x m))
    (h : ∀ {I n}, Walkable I force (fun _ => False) (fun _ => True) Seq.lazy 0 → N < n →
      (x n).ReturnsIn I P) : Settles x P :=
  .of_returnsIn (N := N + 1) hx fun u _ hn => h (.eager force (World.Storing.elastic u)) hn

theorem refines_self (cell : LazyRef) : Refines (fun _ _ => True) (force cell) (force cell) :=
  fun _ _ _ h => ⟨h, trivial⟩

variable {s : Seq} (hs : s.Eager)

include hs

theorem nth_settles (index : Int64) : Settles (fun n => (s.nth force n index).attempt)
    (Run.Alike Copy · (elementAt index s.items)) := by
  refine settles_of_walkable force (s.items.length + 1)
    (fun hn => (nth_congr Refines.any (refines_self force) hn s index).attempt) fun h hn => ?_
  have hrun := nth_returns h hs (by rw [s.expand_lazy]; exact hn) index
  rw [s.expand_lazy] at hrun
  exact hrun.mono fun r hr => hr.mono fun x y hx => hx.copy

omit hs in
/-- An element that is read without a walk to the end. -/
theorem copy_settles {x : Nat → Run Value} {i : Nat}
    (hx : ∀ {n m}, n ≤ m → Refines (fun _ _ => True) (x n) (x m))
    (h : ∀ {I n}, Walkable I force (fun _ => False) (fun _ => True) Seq.lazy 0 → 0 < n →
      (x n).ReturnsIn I fun y =>
        y.StandsFor (fun _ => True) Seq.lazy ((s.expand Seq.lazy).items.getD i .nil)) :
    Settles x (Copy · (s.items.getD i .nil)) := by
  refine settles_of_walkable force 0 hx fun hwalk hn => ?_
  refine (h hwalk hn).mono fun y hy => ?_
  rw [s.expand_lazy] at hy
  exact hy.copy

theorem actsAsList : s.ActsAsList force where
  isEmpty := by
    refine settles_of_walkable force 0 (isEmpty_congr Refines.any (refines_self force) · s)
      fun h hn => ?_
    refine (isEmpty_returns h hs hn).mono fun b hb => ?_
    rw [hb, s.expand_lazy, List.isEmpty_iff]
  first := by
    refine settles_of_walkable force 0 (first_congr Refines.any (refines_self force) · s)
      fun h hn => ?_
    refine (first_returns h hs hn).mono fun x hx => ?_
    rw [s.expand_lazy] at hx
    exact hx.copy
  rest := by
    refine settles_of_walkable force 0 (rest_congr Refines.any (refines_self force) · s)
      fun h hn => ?_
    refine (rest_returns h hs hn).mono fun t ht => ?_
    rw [t.expand_lazy, s.expand_lazy] at ht
    exact ht.2
  prepend x := .bind .freshStorage fun _ _ => .pure rfl
  counted := by
    cases hk : s.counted with
    | none => exact .inl rfl
    | some k =>
      have hlength : (s.expand Seq.lazy).items.length = k := length_of_counted hk
      rw [s.expand_lazy] at hlength
      exact .inr (by rw [hlength])
  count := by
    refine settles_of_walkable force (s.items.length + 1)
      (countFrom_congr Refines.any (refines_self force) · 0 s) fun h hn => ?_
    refine (count_returns h hs (by rwa [s.expand_lazy])).mono fun k hk => ?_
    rw [hk, s.expand_lazy]
  toList := by
    refine settles_of_walkable force (s.items.length + 1)
      (toList_congr Refines.any (refines_self force) · s) fun h hn => ?_
    refine (toList_returns h hs (by rwa [s.expand_lazy])).mono fun xs hxs => ?_
    rw [s.expand_lazy] at hxs
    exact hxs.imp fun x y hx => hx.copy
  second := copy_settles force (second_congr Refines.any (refines_self force) · s)
    fun h hn => second_returns h hs hn
  third := copy_settles force (third_congr Refines.any (refines_self force) · s)
    fun h hn => third_returns h hs hn
  fourth := copy_settles force (fourth_congr Refines.any (refines_self force) · s)
    fun h hn => fourth_returns h hs hn
  nth_negative {index} hindex := by
    refine (nth_settles force hs index).mono fun r hr => ?_
    rw [elementAt, if_pos hindex] at hr
    exact Run.alike_error.1 hr
  nth_element {index y} hindex hy := by
    refine (nth_settles force hs index).mono fun r hr => ?_
    rw [elementAt, if_neg (Int64.not_lt.2 hindex), elementFrom, Nat.sub_zero, hy] at hr
    exact Run.alike_ok.1 hr
  nth_beyond {index} hindex := by
    refine (nth_settles force hs index).mono fun r hr => ?_
    have hnegative : ¬ index < 0 := by
      rw [Int64.lt_iff_toInt_lt]
      simp
      omega
    have hnone : s.items[index.toInt.toNat]? = none := List.getElem?_eq_none (by omega)
    rw [elementAt, if_neg hnegative, elementFrom, Nat.sub_zero, hnone, Nat.zero_add] at hr
    exact Run.alike_error.1 hr

end

/-- Views never pass the end of what they are views of, and the operations on a sequence without
lazy cells are those on its elements. -/
theorem reached_acts_as_list (force : Force) {maps : Dict → Prop} {s : Seq} (hs : s.Reached maps)
    (hfree : (Value.seq s).LazyFree) : s.Placed maps ∧ s.ActsAsList force :=
  ⟨hs.placed, actsAsList force (eager_of_lazyFree hfree)⟩

/-- An element before the rest of the entries of a map. -/
theorem reached_acts_as_list_stacked :
    let m : Dict := ⟨7, [(.int 1, .int 2), (.int 3, .int 4)], .plain⟩
    let rest : Seq := .entries 7 ⟨#[.int 1, .int 2, .int 3, .int 4], 2⟩ .plain
    let s : Seq := .cons 9 (.int 0) rest .plain
    let force : Force := fun _ => Run.exhausted
    (s.Reached (· = m) ∧ (Value.seq s).LazyFree) ∧ s.Placed (· = m) ∧ s.ActsAsList force := by
  intro m rest s force
  have hentries : m.entrySeq.Reached (· = m) := .entrySeq rfl
  have hrest : m.entrySeq.rest force 1 {} = some (.ok rest, {}) := rfl
  have hcons : rest.prepend (.int 0) { storages := 9 } = some (.ok s, { storages := 10 }) := rfl
  have hforce : ∀ cell u v t, force cell u = some (.ok t, v) → t.Reached (· = m) := by
    simp [force, Run.exhausted]
  have hs : s.Reached (· = m) := .prepend (.rest hentries hforce hrest) hcons
  have hint (n : Int64) : (Value.int n).LazyFree :=
    Value.everywhere_iff.2 ⟨rfl, by simp [Value.parts]⟩
  have hview : (Value.seq rest).LazyFree := Value.everywhere_iff.2
    ⟨rfl, by simpa [Value.parts, rest, EntrySlice.flat] using ⟨hint 3, hint 4⟩⟩
  have hfree : (Value.seq s).LazyFree :=
    Value.everywhere_iff.2 ⟨rfl, by simpa [Value.parts, s] using ⟨hint 0, hview⟩⟩
  exact ⟨⟨hs, hfree⟩, reached_acts_as_list force hs hfree⟩

end LispKernel.Seq
