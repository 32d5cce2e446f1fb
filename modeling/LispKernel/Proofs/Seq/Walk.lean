import LispKernel.Proofs.Outcome
import LispKernel.Proofs.Seq.Front
import LispKernel.Proofs.Value.Expansion

/-!
# Walking sequences

Let each lazy cell that may occur show the elements of a sequence that stands in for it, in the
worlds of an invariant. Then a walk through a sequence meets the elements that the sequence has once
its cells are replaced, in order, whatever else it does to the world. An entry of a map shows up as
a vector in new storage each time. Where no lazy cell occurs, a walk takes storage at most.
-/
namespace LispKernel

open List (Forall₂)
open Run (ReturnsIn Alike)
open Value (Copy LazyFree everywhere_iff)

variable {I : World → Prop} {force : Force} {known : LazyRef → Prop} {C : Value → Prop}
  {shown : Showing} {K : Nat}

/-- A value of the class, with its cells replaced in the other value. -/
def Value.StandsFor (C : Value → Prop) (shown : Showing) (x y : Value) : Prop :=
  C x ∧ Copy (x.expand shown) y

/-- What a sequence shows before its first lazy cell is of the class, and the cell is known. -/
def Seq.Over (known : LazyRef → Prop) (C : Value → Prop) : Seq → Prop
  | .empty _ => True
  | .cons _ x rest _ => C x ∧ rest.Over known C
  | .view _ _ slice _ => ∀ x ∈ slice.toList, C x
  | .entries _ slice _ => ∀ e ∈ slice.toList, C e.1 ∧ C e.2
  | .lazy c _ => known c

/-- A front is that of the given elements. -/
def Front.Starts (known : LazyRef → Prop) (C : Value → Prop) (shown : Showing) (ys : List Value) :
    Front → Prop
  | done => ys = []
  | item x rest => (C x ∧ rest.Over known C) ∧ ys = x.expand shown :: (rest.expand shown).items
  | entry key value rest => (C key ∧ C value ∧ rest.Over known C) ∧
      ys = .pair (key.expand shown) (value.expand shown) :: (rest.expand shown).items

/-- In the worlds of the invariant every known cell shows the elements of what stands in for it, at
the cost of some fuel, and what a walk gives where there is no element or an entry is of the
class. -/
structure Walkable (I : World → Prop) (force : Force) (known : LazyRef → Prop) (C : Value → Prop)
    (shown : Showing) (K : Nat) : Prop where
  elastic : Elastic I
  nil : C .nil
  pair {key value : Value} (k : Storage) : C key → C value → C (.vector ⟨⟨k, [key, value]⟩, .plain⟩)
  front {c : LazyRef} {n : Nat} (info : Info) : known c → K ≤ n →
    ((Seq.lazy c info).front force n).ReturnsIn I (Front.Starts known C shown (shown c info).items)

/-- A class of values such that in the worlds of the invariant every cell that occurs in them shows
the elements of what stands in for it, at the cost of some fuel. -/
structure Shows (I : World → Prop) (force : Force) (known : LazyRef → Prop) (C : Value → Prop)
    (shown : Showing) (K : Nat) : Prop extends Walkable I force known C shown K where
  parts {v : Value} : C v → ∀ x ∈ v.parts, C x
  cell {c : LazyRef} {info : Info} : C (.seq (.lazy c info)) → known c

theorem Seq.over_of_parts (hparts : ∀ v, C v → ∀ x ∈ v.parts, C x)
    (hcell : ∀ c i, C (.seq (.lazy c i)) → known c) {s : Seq} (hs : C (.seq s)) :
    s.Over known C := by
  induction s using Seq.items.induct with
  | case1 info => trivial
  | case2 cell first rest info ih =>
    have hparts := hparts _ hs
    exact ⟨hparts first (by simp [Value.parts]), ih (hparts (.seq rest) (by simp [Value.parts]))⟩
  | case3 kind storage slice info => exact hparts _ hs
  | case4 storage slice info => exact EntrySlice.forall_toList (hparts _ hs)
  | case5 cell info => exact hcell cell info hs

theorem Shows.over (h : Shows I force known C shown K) {s : Seq} (hs : C (.seq s)) :
    s.Over known C :=
  Seq.over_of_parts (fun _ => h.parts) (fun _ _ => h.cell) hs

/-- What a value other than a sequence is made of. -/
theorem Shows.content (h : Shows I force known C shown K) {v : Value} (hv : C v)
    (hseq : ∀ s, v ≠ .seq s) : v.content.Forall C := by
  have hparts := h.parts hv
  cases v with
  | atom a => trivial
  | vector v => exact hparts
  | map m => exact forall_entries hparts
  | set s => exact hparts
  | seq s => exact absurd rfl (hseq s)

/-- Where no cell occurs there is nothing to show. -/
theorem Shows.nothing (force : Force) (hI : Elastic I) :
    Shows I force (fun _ => False) LazyFree Seq.lazy 0 where
  elastic := hI
  nil := everywhere_iff.2 ⟨rfl, by simp [Value.parts]⟩
  pair _ hkey hvalue := everywhere_iff.2 ⟨rfl,
    by simpa [Value.parts, Vec.items] using ⟨hkey, hvalue⟩⟩
  parts hv _ hx := hv.of_mem hx
  cell hc := nomatch hc.here
  front _ hc := hc.elim

/-- No lazy cell comes before the end of the sequence; its elements may be anything. -/
def Seq.Eager (s : Seq) : Prop := s.Over (fun _ => False) fun _ => True

theorem Seq.eager_of_lazyFree {s : Seq} (h : (Value.seq s).LazyFree) : s.Eager := by
  induction s using Seq.items.induct with
  | case1 info => trivial
  | case2 cell first rest info ih => exact ⟨trivial, ih (h.of_mem (by simp [Value.parts]))⟩
  | case3 kind storage slice info => exact fun _ _ => trivial
  | case4 storage slice info => exact fun _ _ => ⟨trivial, trivial⟩
  | case5 cell info => cases h.here

/-- Where no cell has to be realized there is nothing to show. -/
theorem Walkable.eager (force : Force) (hI : Elastic I) :
    Walkable I force (fun _ => False) (fun _ => True) Seq.lazy 0 where
  elastic := hI
  nil := trivial
  pair _ _ _ := trivial
  front _ hc := hc.elim

/-- Where cells stand for themselves, nothing is replaced. -/
theorem Value.StandsFor.copy {x y : Value} (h : x.StandsFor C Seq.lazy y) : Copy x y := by
  have := h.2
  rwa [x.expand_lazy] at this

namespace Front

variable {ys : List Value}

theorem Starts.isDone_eq {f : Front} (h : f.Starts known C shown ys) : f.isDone = ys.isEmpty := by
  cases f with
  | done =>
    have hys : ys = [] := h
    rw [hys]
    rfl
  | _ =>
    rw [h.2]
    rfl

theorem Starts.rest {f : Front} (h : f.Starts known C shown ys) :
    f.rest.Over known C ∧ (f.rest.expand shown).items = ys.tail := by
  cases f with
  | done =>
    have hys : ys = [] := h
    rw [hys]
    exact ⟨trivial, rfl⟩
  | item x rest =>
    rw [h.2]
    exact ⟨h.1.2, rfl⟩
  | entry key value rest =>
    rw [h.2]
    exact ⟨h.1.2.2, rfl⟩

theorem Starts.first (h : Walkable I force known C shown K) {f : Front}
    (hf : f.Starts known C shown ys) :
    f.first.ReturnsIn I fun x => x.StandsFor C shown (ys.headD .nil) := by
  cases f with
  | done =>
    have hys : ys = [] := hf
    rw [hys]
    exact .pure ⟨h.nil, .refl _⟩
  | item x rest =>
    rw [hf.2]
    exact .pure ⟨hf.1.1, .refl _⟩
  | entry key value rest =>
    rw [hf.2]
    show ReturnsIn I (Run.freshStorage >>= fun k =>
      pure (Value.vector ⟨⟨k, [key, value]⟩, .plain⟩)) _
    refine (ReturnsIn.freshStorage h.elastic).bind fun k _ => .pure ?_
    exact ⟨h.pair k hf.1.1 hf.1.2.1, .vector k 0 _ _⟩

end Front

namespace Seq

theorem over_ofSlice {kind : ViewKind} {storage : Storage} {slice : Slice}
    (h : ∀ x ∈ slice.toList, C x) : (ofSlice kind storage slice).Over known C :=
  ofSlice_cases (fun _ => h) fun _ => trivial

theorem over_ofEntries {storage : Storage} {slice : EntrySlice}
    (h : ∀ e ∈ slice.toList, C e.1 ∧ C e.2) : (ofEntries storage slice).Over known C :=
  ofEntries_cases (fun _ => h) fun _ => trivial

/-- What a step of a walk may come to. -/
def Next (known : LazyRef → Prop) (C : Value → Prop) (shown : Showing) (ys : List Value) :
    Option (Value × Seq) → Prop
  | none => ys = []
  | some (x, rest) => rest.Over known C ∧
      ∃ y, ys = y :: (rest.expand shown).items ∧ x.StandsFor C shown y

/-- The front of a sequence, given that of the cell that it may be. -/
theorem front_returns_of_cell {s : Seq} (hs : s.Over known C) {n : Nat}
    (hcell : ∀ c info, s = .lazy c info → (s.front force (n + 1)).ReturnsIn I
      (Front.Starts known C shown (shown c info).items)) :
    (s.front force (n + 1)).ReturnsIn I (Front.Starts known C shown (s.expand shown).items) := by
  cases s with
  | empty info => exact .pure rfl
  | cons cell x rest info => exact .pure ⟨hs, rfl⟩
  | view kind storage slice info =>
    rw [front, items_expand_view]
    obtain ⟨hnil, hfront⟩ | ⟨x, hcons, hfront⟩ := slice.front_cases kind storage
    · rw [hfront, hnil]
      exact .pure rfl
    · rw [Over, hcons] at hs
      have hs := List.forall_mem_cons.1 hs
      rw [hfront, hcons]
      exact .pure ⟨⟨hs.1, over_ofSlice hs.2⟩, by simp⟩
  | entries storage slice info =>
    rw [front, items_expand_entries]
    obtain ⟨hnil, hfront⟩ | ⟨key, value, hcons, hfront⟩ := slice.front_cases storage
    · rw [hfront, hnil]
      exact .pure rfl
    · rw [Over, hcons] at hs
      have hs := List.forall_mem_cons.1 hs
      rw [hfront, hcons]
      exact .pure ⟨⟨hs.1.1, hs.1.2, over_ofEntries hs.2⟩, by simp⟩
  | «lazy» cell info => exact hcell cell info rfl

section

variable (h : Walkable I force known C shown K) {s t : Seq} (hs : s.Over known C) {n : Nat}

include h hs

theorem front_returns (hn : K < n) :
    (s.front force n).ReturnsIn I (Front.Starts known C shown (s.expand shown).items) := by
  obtain ⟨n, rfl⟩ : ∃ m, n = m + 1 := ⟨n - 1, by omega⟩
  apply front_returns_of_cell hs
  rintro c info rfl
  exact h.front info hs (by omega)

theorem isEmpty_returns (hn : K < n) :
    (s.isEmpty force n).ReturnsIn I (· = (s.expand shown).items.isEmpty) := by
  rw [isEmpty_eq]
  exact (front_returns h hs hn).bind fun _ hf => .pure hf.isDone_eq

theorem first_returns (hn : K < n) : (s.first force n).ReturnsIn I
    fun x => x.StandsFor C shown ((s.expand shown).items.headD .nil) := by
  rw [first_eq]
  exact (front_returns h hs hn).bind fun _ hf => hf.first h

theorem rest_returns (hn : K < n) : (s.rest force n).ReturnsIn I fun t =>
    t.Over known C ∧ (t.expand shown).items = (s.expand shown).items.tail := by
  rw [rest_eq]
  exact (front_returns h hs hn).bind fun _ hf => .pure hf.rest

/-- One step further on the element before is at the index before. -/
theorem rest_bind_returns {x : Seq → Run Value} {i : Nat} (hn : K < n)
    (hx : ∀ t : Seq, t.Over known C → (x t).ReturnsIn I
      fun y => y.StandsFor C shown ((t.expand shown).items.getD i .nil)) :
    (s.rest force n >>= x).ReturnsIn I
      fun y => y.StandsFor C shown ((s.expand shown).items.getD (i + 1) .nil) := by
  refine (rest_returns h hs hn).bind fun t ht => ?_
  have htail : (t.expand shown).items.getD i .nil = (s.expand shown).items.getD (i + 1) .nil := by
    rw [ht.2]
    cases (s.expand shown).items <;> simp
  rw [← htail]
  exact hx t ht.1

theorem second_returns (hn : K < n) : (s.second force n).ReturnsIn I
    fun x => x.StandsFor C shown ((s.expand shown).items.getD 1 .nil) :=
  rest_bind_returns h hs hn fun t ht => by
    have hfirst := first_returns h ht hn
    rwa [List.headD_eq_head?_getD, List.head?_eq_getElem?, ← List.getD_eq_getElem?_getD] at hfirst

theorem third_returns (hn : K < n) : (s.third force n).ReturnsIn I
    fun x => x.StandsFor C shown ((s.expand shown).items.getD 2 .nil) :=
  rest_bind_returns h hs hn fun _ ht => second_returns h ht hn

theorem fourth_returns (hn : K < n) : (s.fourth force n).ReturnsIn I
    fun x => x.StandsFor C shown ((s.expand shown).items.getD 3 .nil) :=
  rest_bind_returns h hs hn fun _ ht => third_returns h ht hn

theorem next_returns (hn : K < n) :
    (s.next force n).ReturnsIn I (Next known C shown (s.expand shown).items) := by
  refine (isEmpty_returns h hs hn).bind fun b hb => ?_
  have hfirst := first_returns h hs hn
  have hrest := rest_returns h hs hn
  cases hys : (s.expand shown).items with
  | nil =>
    rw [hb, hys]
    exact .pure rfl
  | cons y ys =>
    rw [hys] at hb hfirst hrest
    rw [hb]
    refine hfirst.bind fun x hx => hrest.bind fun t ht => .pure ⟨ht.1, y, ?_, hx⟩
    rw [ht.2, List.tail_cons]

/-- A fold over a sequence keeps up with a fold over the elements. -/
theorem fold_returns {β γ : Type} {R : β → γ → Prop} {f : β → Value → Run β} {g : γ → Value → γ}
    (hn : (s.expand shown).items.length + K + 1 < n) {b : β} {c : γ} (hbc : R b c)
    (hf : ∀ b c, R b c → ∀ y ∈ (s.expand shown).items, ∀ x, x.StandsFor C shown y →
      (f b x).ReturnsIn I (R · (g c y))) :
    (s.fold force f n b).ReturnsIn I (R · ((s.expand shown).items.foldl g c)) := by
  induction n generalizing s b c with
  | zero => omega
  | succ n ih =>
    refine (next_returns h hs (by omega)).bind fun next hnext => ?_
    rcases next with _ | ⟨x, rest⟩
    · have hnil : (s.expand shown).items = [] := hnext
      rw [hnil]
      exact .pure hbc
    · obtain ⟨hrest, y, hy, hx⟩ := hnext
      rw [hy, List.length_cons] at hn
      rw [hy]
      refine (hf b c hbc y (by simp [hy]) x hx).bind fun b' hb' => ih hrest (by omega) hb' ?_
      exact fun b c hbc z hz => hf b c hbc z (by simp [hy, hz])

theorem toList_returns (hn : (s.expand shown).items.length + K + 1 < n) :
    (s.toList force n).ReturnsIn I
      (Forall₂ (Value.StandsFor C shown) · (s.expand shown).items) := by
  have hfold := fold_returns (R := Forall₂ (Value.StandsFor C shown))
    (f := fun xs x => pure (x :: xs)) (g := fun ys y => y :: ys) h hs hn .nil
    fun xs ys hxs y _ x hx => .pure (.cons hx hxs)
  refine hfold.bind fun xs hxs => .pure ?_
  rw [← List.forall₂_reverse_iff, List.reverse_reverse]
  simpa using hxs

/-- Two sequences are compared element by element. -/
theorem equal_returns {eq : Comparison} {p : Test} (ht : t.Over known C)
    (hn : (s.expand shown).items.length + K + 1 < n)
    (heq : ∀ x' ∈ (s.expand shown).items, ∀ y' ∈ (t.expand shown).items, ∀ x y,
      x.StandsFor C shown x' → y.StandsFor C shown y' →
      (eq x y).ReturnsIn I (· = p x' y')) :
    (s.equal force eq n t).ReturnsIn I
      (· = (s.expand shown).items.isEqv (t.expand shown).items p) := by
  induction n generalizing s t with
  | zero => omega
  | succ n ih =>
    refine (next_returns h hs (by omega)).attempt.bind fun _ ⟨a, ha, hnexta⟩ => ?_
    refine (next_returns h ht (by omega)).attempt.bind fun _ ⟨b, hb, hnextb⟩ => ?_
    subst ha hb
    rcases a with _ | ⟨x, s'⟩ <;> rcases b with _ | ⟨y, t'⟩
    · have hs' : (s.expand shown).items = [] := hnexta
      have ht' : (t.expand shown).items = [] := hnextb
      exact .pure (by simp [hs', ht'])
    · have hs' : (s.expand shown).items = [] := hnexta
      obtain ⟨-, y', hy, -⟩ := hnextb
      exact .pure (by simp [hs', hy])
    · obtain ⟨-, x', hx, -⟩ := hnexta
      have ht' : (t.expand shown).items = [] := hnextb
      exact .pure (by simp [hx, ht'])
    · obtain ⟨hs', x', hx, hx'⟩ := hnexta
      obtain ⟨ht', y', hy, hy'⟩ := hnextb
      have hrest := ih hs' ht' (by rw [hx, List.length_cons] at hn; omega)
        fun u hu v hv => heq u (by simp [hx, hu]) v (by simp [hy, hv])
      refine (heq x' (by simp [hx]) y' (by simp [hy]) x y hx' hy').bind fun same hsame => ?_
      rw [hx, hy, List.isEqv, ← hsame]
      cases same
      · exact .pure rfl
      · exact hrest.mono fun r hr => by simp [hr]

end

/-! ## Counting and indexing -/

theorem length_of_counted {s : Seq} {k : Nat} (h : s.counted = some k) :
    (s.expand shown).items.length = k := by
  cases s with
  | empty info => exact Option.some.inj h
  | view kind storage slice info => simpa [counted, slice.count_eq] using h
  | entries storage slice info => simpa [counted, slice.count_eq] using h
  | cons cell x rest info => cases h
  | «lazy» cell info => cases h

/-- The element at an index that is not negative, where some elements are behind already. -/
def elementFrom (index : Int64) (walked : Nat) (ys : List Value) : Except Error Value :=
  match ys[index.toInt.toNat - walked]? with
  | some y => .ok y
  | none => .error (.indexOutOfRange index (some (walked + ys.length)))

/-- The element at an index, or why there is none. -/
def elementAt (index : Int64) (ys : List Value) : Except Error Value :=
  if index < 0 then .error (.indexOutOfRange index none) else elementFrom index 0 ys

theorem elementFrom_cons {index : Int64} {walked : Nat} (y : Value) (ys : List Value)
    (h : walked < index.toInt.toNat) :
    elementFrom index walked (y :: ys) = elementFrom index (walked + 1) ys := by
  obtain ⟨k, hk⟩ : ∃ k, index.toInt.toNat = walked + 1 + k :=
    ⟨index.toInt.toNat - (walked + 1), by omega⟩
  have hstep : walked + 1 + k - walked = k + 1 := by omega
  rw [elementFrom, elementFrom, hk, hstep, List.getElem?_cons_succ, Nat.add_sub_cancel_left,
    List.length_cons, Nat.add_right_comm, Nat.add_assoc]

section

variable (h : Walkable I force known C shown K) {s : Seq} (hs : s.Over known C) {n : Nat}
  (hn : (s.expand shown).items.length + K + 1 < n)

include h hs hn

theorem countFrom_returns (seen : Nat) :
    (s.countFrom force n seen).ReturnsIn I (· = seen + (s.expand shown).items.length) := by
  induction n generalizing s seen with
  | zero => omega
  | succ n ih =>
    rw [countFrom]
    cases hk : s.counted with
    | some k => exact .pure (by rw [length_of_counted hk])
    | none =>
      refine (isEmpty_returns h hs (by omega)).bind fun b hb => ?_
      have hrest := rest_returns h hs (n := n) (by omega)
      cases hys : (s.expand shown).items with
      | nil =>
        rw [hb, hys]
        exact .pure rfl
      | cons y ys =>
        rw [hys] at hb hrest
        rw [hys, List.length_cons] at hn
        rw [hb]
        refine hrest.bind fun t ht => ?_
        have hlength : (t.expand shown).items.length = ys.length := by rw [ht.2, List.tail_cons]
        refine (ih ht.1 (by omega) (seen + 1)).mono fun k hk => ?_
        rw [hk, hlength, List.length_cons]
        omega

theorem count_returns : (s.count force n).ReturnsIn I (· = (s.expand shown).items.length) :=
  (countFrom_returns h hs hn 0).mono fun k hk => by rw [hk, Nat.zero_add]

theorem nthFrom_returns {index : Int64} {walked : Nat} (hwalked : walked ≤ index.toInt) :
    (s.nthFrom force index n walked).attempt.ReturnsIn I
      (Alike (Value.StandsFor C shown) · (elementFrom index walked (s.expand shown).items)) := by
  induction n generalizing s walked with
  | zero => omega
  | succ n ih =>
    refine (isEmpty_returns h hs (by omega)).attempt_bind fun b hb => ?_
    have hfirst := first_returns h hs (n := n) (by omega)
    have hrest := rest_returns h hs (n := n) (by omega)
    cases hys : (s.expand shown).items with
    | nil =>
      rw [hb, hys, elementFrom]
      exact .pure rfl
    | cons y ys =>
      rw [hys] at hb hfirst hrest
      rw [hys, List.length_cons] at hn
      rw [hb, List.isEmpty_cons]
      -- the walk is at the index or has to go on
      by_cases hindex : walked = index.toInt
      · have hzero : index.toInt.toNat - walked = 0 := by omega
        rw [if_neg Bool.false_ne_true, if_pos hindex, elementFrom, hzero]
        refine hfirst.attempt.mono ?_
        rintro _ ⟨x, rfl, hx⟩
        exact hx
      · rw [if_neg Bool.false_ne_true, if_neg hindex, elementFrom_cons y ys (by omega)]
        refine hrest.attempt_bind fun t ht => ?_
        have htail : (t.expand shown).items = ys := ht.2
        rw [← htail]
        exact ih ht.1 (by rw [htail]; omega) (by omega)

theorem nth_returns (index : Int64) : (s.nth force n index).attempt.ReturnsIn I
    (Alike (Value.StandsFor C shown) · (elementAt index (s.expand shown).items)) := by
  unfold nth elementAt
  by_cases hindex : index < 0
  · rw [if_pos hindex, if_pos hindex]
    exact .pure rfl
  · rw [if_neg hindex, if_neg hindex]
    refine nthFrom_returns h hs hn ?_
    simpa [Int64.lt_iff_toInt_lt] using hindex

end

end Seq

end LispKernel
