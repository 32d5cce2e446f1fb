import LispKernel.Native.Stream
import LispKernel.Proofs.Equality.Laws
import LispKernel.Proofs.Render.Limit

/-!
# Streams are realized as far as needed

A stream is a lazy sequence whose cells each give the end or one element before a new cell.
Indexing, rendering under a print length and comparing with a stream that is different come to an
end even if the stream does not. They make the calls of the cells they have to see, each once, and
realize no cell behind these.
-/
namespace LispKernel

open Run (ComesTo Refines)
open Value (Equal agree)

namespace World

/-- The world with other lazy cells, calls, storage, counters and lines. -/
def Around (base w : World) : Prop := ∃ lazies productions storages counters log,
  w = { base with lazies, productions, storages, counters, log }

/-- All that happened is that storage was taken, counters were moved and lines were logged. -/
def Idle (w w' : World) : Prop := ∃ storages counters log, w' = { w with storages, counters, log }

/-- Besides new cells, just the given cells have changed. They have made their calls in this
order. -/
structure Grown (cells : List LazyRef) (w w' : World) : Prop where
  productions : w'.productions = cells.reverse ++ w.productions
  size : w.lazies.size ≤ w'.lazies.size
  others {cell : LazyRef} : cell < w.lazies.size → cell ∉ cells →
    w'.lazies.get? cell = w.lazies.get? cell

theorem Grown.refl (w : World) : Grown [] w w := ⟨rfl, Nat.le_refl _, fun _ _ => rfl⟩

theorem Grown.trans {cells cells' : List LazyRef} {w v w' : World} (h : Grown cells w v)
    (h' : Grown cells' v w') : Grown (cells ++ cells') w w' where
  productions := by
    rw [h'.productions, h.productions, List.reverse_append, List.append_assoc]
  size := Nat.le_trans h.size h'.size
  others {cell} hcell hmem := by
    rw [List.mem_append, not_or] at hmem
    rw [h'.others (Nat.lt_of_lt_of_le hcell h.size) hmem.2, h.others hcell hmem.1]

theorem Ahead.grown {w u : World} (h : w.Ahead u) : Grown [] w u := by
  obtain ⟨k, rfl⟩ := h
  exact ⟨rfl, Nat.le_refl _, fun _ _ => rfl⟩

theorem Ahead.around {base w u : World} (h : w.Ahead u) (hw : base.Around w) : base.Around u := by
  obtain ⟨k, rfl⟩ := h
  obtain ⟨_, _, _, _, _, rfl⟩ := hw
  exact ⟨_, _, _, _, _, rfl⟩

end World

/-- Comparing values without lazy cells costs storage at most. -/
theorem Value.equals_reaches {a b : Value} (ha : a.LazyFree) (hb : b.LazyFree) (w : World) :
    ∃ N v, w.Ahead v ∧ ∀ m ≥ N, ∀ n ≥ N, a.equals (Machine.force m) n b w =
      some (.ok (agree a b), v) := by
  let N := max a.weight b.weight
  have ha' : a.Fits N := ⟨ha, Nat.le_max_left ..⟩
  have hb' : b.Fits N := ⟨hb, Nat.le_max_right ..⟩
  have hreturns := equals_decides (Machine.force 0) N (World.Ahead.elastic w) a b ha' hb'
  obtain ⟨_, v, hrun, hv, rfl⟩ := hreturns w (.refl w)
  refine ⟨N, v, hv, fun m _ n hn => ?_⟩
  have hrefines := equals_congr Refines.any (Machine.refines Steps.any (Nat.zero_le m)).2.2 hn a b
  exact (hrefines w _ v hrun).1

namespace Seq

variable {force : Force} {eq : Comparison} {n : Nat} {s t s' t' : Seq} {w v u u' : World}

theorem equal_of_ended {a b : Option (Value × Seq)} (hs : s.next force n w = some (.ok a, v))
    (ht : t.next force n v = some (.ok b, u)) (hab : a = none ↔ b ≠ none) :
    s.equal force eq (n + 1) t w = some (.ok false, u) := by
  rw [equal, Run.bind_of_ok (Run.attempt_eq hs), Run.bind_of_ok (Run.attempt_eq ht)]
  cases a <;> cases b
  case none.some => rfl
  case some.none => rfl
  all_goals simp at hab

theorem equal_of_next {x y : Value} {r : Bool}
    (hs : s.next force n w = some (.ok (some (x, s')), v))
    (ht : t.next force n v = some (.ok (some (y, t')), u)) (heq : eq x y u = some (.ok r, u')) :
    s.equal force eq (n + 1) t w =
      if r then s'.equal force eq n t' u' else some (.ok false, u') := by
  rw [equal, Run.bind_of_ok (Run.attempt_eq hs), Run.bind_of_ok (Run.attempt_eq ht)]
  refine (Run.bind_of_ok heq).trans ?_
  cases r <;> rfl

end Seq

/-- A lazy sequence whose producers do nothing but give the end or an element before a new cell,
from all worlds around a given one. -/
structure LazyStream (base : World) where
  element : Nat → Value
  /-- How many elements there are, unless there is no end. -/
  length : Option Nat
  /-- The calls that the cell at a place can wait for. -/
  Waits : Nat → Value → List Value → Prop
  lazyFree (i : Nat) : (element i).LazyFree
  ended {i : Nat} {callee : Value} {args : List Value} {w : World} : length = some i →
    Waits i callee args → base.Around w →
    ∃ w', ComesTo (Machine.call · callee args) w (.ok .nil) w' ∧ w.Idle w'
  next {i : Nat} {callee : Value} {args : List Value} {w : World} : length ≠ some i →
    Waits i callee args → base.Around w →
    ∃ cell callee' args' w', ComesTo (Machine.call · callee args) w
        (.ok (.seq (.cons cell (element i) (.lazy w.lazies.size .plain) .plain))) w' ∧
      World.Idle { w with lazies := w.lazies.push (.pending callee' args') } w' ∧
      Waits (i + 1) callee' args'

namespace LazyStream

variable {base : World} (S : LazyStream base)

/-- The cell waits for the call that makes the element at a place. -/
structure At (i : Nat) (cell : LazyRef) (w : World) : Prop where
  around : base.Around w
  waits : ∃ callee args, w.lazies.get? cell = some (.pending callee args) ∧ S.Waits i callee args

/-- From a cell on, just these cells are realized. -/
inductive Realized (w : World) : Nat → LazyRef → List LazyRef → Prop where
  | pending {i : Nat} {cell : LazyRef} {callee : Value} {args : List Value} :
      w.lazies.get? cell = some (.pending callee args) → S.Waits i callee args →
      Realized w i cell []
  | ended {i : Nat} {cell : LazyRef} :
      w.lazies.get? cell = some (.realized (.empty .plain)) → S.length = some i →
      Realized w i cell [cell]
  | further {i : Nat} {cell later : LazyRef} {storage : Storage} {cells : List LazyRef} :
      w.lazies.get? cell =
        some (.realized (.cons storage (S.element i) (.lazy later .plain) .plain)) →
      S.length ≠ some i → Realized w (i + 1) later cells → Realized w i cell (cell :: cells)

variable {S} {i : Nat} {cell : LazyRef} {w v u w' : World} {info : Info}

theorem At.lt_size (h : S.At i cell w) : cell < w.lazies.size := by
  obtain ⟨callee, args, hcell, -⟩ := h.waits
  exact Heap.lt_size_of_get? hcell

/-- A cell that waits still does so after others have changed. -/
theorem At.of_grown {cells : List LazyRef} (h : S.At i cell w) (hgrown : w.Grown cells w')
    (hw' : base.Around w') (hcell : cell ∉ cells) : S.At i cell w' := by
  obtain ⟨callee, args, hpending, hwaits⟩ := h.waits
  exact ⟨hw', callee, args, (hgrown.others h.lt_size hcell).trans hpending, hwaits⟩

theorem At.delay (h : S.At i cell w) (hu : w.Ahead u) : S.At i cell u :=
  h.of_grown hu.grown (hu.around h.around) (by simp)

/-! ## One call -/

/-- A cell keeps what its call gives. -/
theorem force_comesTo {callee : Value} {args : List Value} {value : Value} {s : Seq}
    (hcell : w.lazies.get? cell = some (.pending callee args))
    (hcall : ComesTo (Machine.call · callee args) { w with productions := cell :: w.productions }
      (.ok value) v)
    (hseq : value.seq? v = some (.ok (some s), v))
    (hpending : ∀ t, v.lazies.get? cell ≠ some (.realized t)) :
    ComesTo (Machine.force · cell) w (.ok s)
      { v with lazies := v.lazies.set cell (.realized s) } := by
  obtain ⟨N, hN⟩ := hcall
  refine .of_succ (N := N) fun n hn => ?_
  rw [Machine.force, LazyCell.realize_pending hcell, Run.bind_of_ok (hN n hn), LazyCell.keep,
    Run.bind_of_ok hseq]
  simp only [LazyCell.realized?, Run.gets_bind]
  rcases hv : v.lazies.get? cell with _ | ⟨callee', args'⟩ | t
  · rfl
  · rfl
  · exact absurd hv (hpending t)

theorem looks_of_force {f : Front} {s : Seq}
    (h : ComesTo (Machine.force · cell) w (.ok s) v) (hs : s.Opens f) :
    (Seq.lazy cell info).Looks w (.ok f) v := by
  obtain ⟨N, hN⟩ := h
  refine .of_succ (N := N + 1) fun n hn => ?_
  obtain ⟨n, rfl⟩ : ∃ k, n = k + 1 := ⟨n - 1, by omega⟩
  exact (Run.bind_of_ok (hN (n + 1 + 1) (by omega))).trans (hs _ n v)

/-- One cell has been forced and gave an element before a new cell that waits. -/
structure Passed (S : LazyStream base) (i : Nat) (cell : LazyRef) (w : World) (later : LazyRef)
    (w' : World) : Prop where
  before_end : S.length ≠ some i
  waiting : S.At (i + 1) later w'
  grown : w.Grown [cell] w'
  new : w.lazies.size ≤ later
  kept : ∃ storage, w'.lazies.get? cell =
    some (.realized (.cons storage (S.element i) (.lazy later .plain) .plain))

/-- The cells from one on that have been forced since a world, each once, which are new but for the
first. -/
structure Forced (S : LazyStream base) (i : Nat) (cell : LazyRef) (w : World)
    (cells : List LazyRef) (w' : World) : Prop where
  grown : w.Grown cells w'
  nodup : cells.Nodup
  new : ∀ c ∈ cells, c = cell ∨ w.lazies.size ≤ c
  realized : S.Realized w' i cell cells

/-- At its end the stream has no more cells. -/
theorem At.ends (h : S.At i cell w) (hlength : S.length = some i) : ∃ w',
    (∀ info, (Seq.lazy cell info).Looks w (.ok .done) w') ∧ base.Around w' ∧
      S.Forced i cell w [cell] w' := by
  obtain ⟨callee, args, hcell, hwaits⟩ := h.waits
  obtain ⟨_, _, _, _, _, rfl⟩ := h.around
  obtain ⟨v, hcall, _, _, _, rfl⟩ := S.ended hlength hwaits ⟨_, _, _, _, _, rfl⟩
  have hforce := force_comesTo hcell hcall rfl (by
    intro t ht
    cases hcell.symm.trans ht)
  refine ⟨_, fun info => looks_of_force hforce fun _ _ _ => rfl, ⟨_, _, _, _, _, rfl⟩,
    ⟨rfl, ?_, ?_⟩, by simp, by simp, .ended ?_ hlength⟩
  · exact Nat.le_of_eq (Heap.size_set ..).symm
  · intro other _ hother
    rw [Heap.get?_set, if_neg]
    rintro ⟨rfl, -⟩
    exact hother (by simp)
  · rw [Heap.get?_set, if_pos ⟨rfl, Heap.lt_size_of_get? hcell⟩]

/-- Before its end the stream has an element and a new cell that waits. -/
theorem At.goesOn (h : S.At i cell w) (hlength : S.length ≠ some i) : ∃ later w',
    (∀ info, (Seq.lazy cell info).Looks w (.ok (.item (S.element i) (.lazy later .plain))) w') ∧
      S.Passed i cell w later w' := by
  obtain ⟨callee, args, hcell, hwaits⟩ := h.waits
  have hlt := h.lt_size
  obtain ⟨lazies, _, _, _, _, rfl⟩ := h.around
  obtain ⟨storage, callee', args', v, hcall, ⟨_, _, _, rfl⟩, hwaits'⟩ :=
    S.next hlength hwaits ⟨_, _, _, _, _, rfl⟩
  have hpush : (lazies.push (.pending callee' args')).get? cell = some (.pending callee args) := by
    rw [Heap.get?_push, if_neg (Nat.ne_of_lt hlt)]
    exact hcell
  have hforce := force_comesTo hcell hcall rfl (by
    intro t ht
    cases hpush.symm.trans ht)
  refine ⟨lazies.size, _, fun info => looks_of_force hforce fun _ _ _ => rfl, hlength,
    ⟨⟨_, _, _, _, _, rfl⟩, callee', args', ?_, hwaits'⟩, ⟨rfl, ?_, ?_⟩, Nat.le_refl _,
    storage, ?_⟩
  · rw [Heap.get?_set, if_neg (fun hsame => Nat.ne_of_lt hlt hsame.1), Heap.get?_push, if_pos rfl]
  · rw [Heap.size_set, Heap.size_push]
    exact Nat.le_succ _
  · intro other hsize hother
    rw [Heap.get?_set, if_neg, Heap.get?_push, if_neg (Nat.ne_of_lt hsize)]
    rintro ⟨rfl, -⟩
    exact hother (by simp)
  · rw [Heap.get?_set, if_pos ⟨rfl, Heap.lt_size_of_get? hpush⟩]

/-! ## Many calls -/

variable {cells : List LazyRef} {later : LazyRef}

theorem Forced.none (h : S.At i cell w) : S.Forced i cell w [] w := by
  obtain ⟨callee, args, hcell, hwaits⟩ := h.waits
  exact ⟨.refl w, .nil, by simp, .pending hcell hwaits⟩

theorem Forced.delay (h : S.Forced i cell u cells w') (hu : w.Ahead u) :
    S.Forced i cell w cells w' := by
  obtain ⟨k, rfl⟩ := hu
  exact ⟨⟨h.grown.productions, h.grown.size, h.grown.others⟩, h.nodup, h.new, h.realized⟩

/-- The cell itself is realized before what is so from the later one on, if it is left as it is. -/
theorem Passed.realized {made : List LazyRef} (h : S.Passed i cell w later v)
    (hcell : cell < w.lazies.size) (hgrown : v.Grown made w') (hmade : cell ∉ made)
    (hrest : S.Realized w' (i + 1) later cells) : S.Realized w' i cell (cell :: cells) := by
  obtain ⟨storage, hkept⟩ := h.kept
  have hsame := hgrown.others (Nat.lt_of_lt_of_le hcell h.grown.size) hmade
  exact .further (hsame.trans hkept) h.before_end hrest

/-- What is forced from the later cell on comes after the cell itself. -/
theorem Passed.forced (h : S.Passed i cell w later v) (hcell : cell < w.lazies.size)
    (hrest : S.Forced (i + 1) later v cells w') : S.Forced i cell w (cell :: cells) w' := by
  have hnew : ∀ c ∈ cells, w.lazies.size ≤ c := by
    intro c hc
    rcases hrest.new c hc with rfl | hsize
    · exact h.new
    · exact Nat.le_trans h.grown.size hsize
  have hnot : cell ∉ cells := fun hmem => absurd (hnew cell hmem) (Nat.not_le.2 hcell)
  refine ⟨h.grown.trans hrest.grown, List.nodup_cons.2 ⟨hnot, hrest.nodup⟩, ?_,
    h.realized hcell hrest.grown hnot hrest.realized⟩
  intro c hc
  exact (List.mem_cons.1 hc).imp id (hnew c)

section Places

variable (S)

/-- There is a cell for the place, be it the one at the end. -/
def Reaches (i : Nat) : Prop := ∀ l ∈ S.length, i ≤ l

/-- How many elements come before a place. -/
def stop (n : Nat) : Nat :=
  match S.length with
  | none => n
  | some l => min n l

/-- The element at a place, or that the stream ends before it. -/
def lookup (index : Int64) (n : Nat) : Except Error Value :=
  match S.length with
  | none => .ok (S.element n)
  | some l => if n < l then .ok (S.element n) else .error (.indexOutOfRange index (some l))

theorem stop_le (n : Nat) : S.stop n ≤ n := by
  unfold stop
  split
  · exact Nat.le_refl n
  · exact Nat.min_le_left ..

variable {S}

theorem Reaches.zero : S.Reaches 0 := fun l _ => Nat.zero_le l

theorem Reaches.succ (h : S.Reaches i) (hlength : S.length ≠ some i) : S.Reaches (i + 1) := by
  intro l hl
  have hle := h l hl
  have hne : i ≠ l := by
    rintro rfl
    exact hlength hl
  omega

theorem stop_of_ended (hlength : S.length = some i) (k : Nat) : S.stop (i + k) = i := by
  simp [stop, hlength]

theorem Reaches.stop_eq (h : S.Reaches i) : S.stop i = i := by
  cases hl : S.length with
  | none => simp [stop, hl]
  | some l => simp [stop, hl, Nat.min_eq_left (h l hl)]

theorem Reaches.lt_stop (h : S.Reaches (i + 1)) {n : Nat} (hn : i < n) : i < S.stop n := by
  cases hl : S.length with
  | none => simpa [stop, hl] using hn
  | some l =>
    have hlt : i < l := h l hl
    simp only [stop, hl]
    omega

theorem lookup_of_ended (hlength : S.length = some i) (index : Int64) (k : Nat) :
    S.lookup index (i + k) = .error (.indexOutOfRange index (some i)) := by
  simp [lookup, hlength]

theorem Reaches.lookup_eq (h : S.Reaches (i + 1)) (index : Int64) :
    S.lookup index i = .ok (S.element i) := by
  cases hl : S.length with
  | none => simp [lookup, hl]
  | some l =>
    have hlt : i < l := h l hl
    simp [lookup, hl, hlt]

end Places

/-! ## Indexing -/

theorem At.nthFrom_ended (h : S.At i cell w) (hlength : S.length = some i) (index : Int64) (k : Nat)
    (info : Info) : ∃ w' cells,
      (∃ N, ∀ m ≥ N, ∀ n ≥ N, (Seq.lazy cell info).nthFrom (Machine.force m) index (n + 1) i w =
        some (S.lookup index (i + k), w')) ∧
      S.Forced i cell w cells w' ∧ i + cells.length = S.stop (i + k) + 1 := by
  obtain ⟨w', hlook, -, hforced⟩ := h.ends hlength
  obtain ⟨N, hN⟩ := (hlook info).front
  refine ⟨w', [cell], ⟨N, fun m hm n hn => ?_⟩, hforced, ?_⟩
  · rw [lookup_of_ended hlength]
    exact Seq.nthFrom_of_done (hN m hm n hn)
  · rw [stop_of_ended hlength]
    rfl

/-- Indexing from a place on comes to the element so many places later, and all cells up to it have
made their calls. -/
theorem At.nthFrom (h : S.At i cell w) (hi : S.Reaches i) {k : Nat} {index : Int64}
    (hindex : index.toInt = i + k) (info : Info) : ∃ w' cells,
      (∃ N, ∀ m ≥ N, ∀ n ≥ N, (Seq.lazy cell info).nthFrom (Machine.force m) index (n + 1) i w =
        some (S.lookup index (i + k), w')) ∧
      S.Forced i cell w cells w' ∧ i + cells.length = S.stop (i + k) + 1 := by
  induction k generalizing i cell w info with
  | zero =>
    by_cases hlength : S.length = some i
    · exact h.nthFrom_ended hlength index 0 info
    · obtain ⟨later, w', hlook, hpassed⟩ := h.goesOn hlength
      obtain ⟨N, hN⟩ := (hlook info).front
      refine ⟨w', [cell], ⟨N, fun m hm n hn => ?_⟩,
        hpassed.forced h.lt_size (.none hpassed.waiting), ?_⟩
      · have hfront := hN m hm n hn
        rw [Seq.nthFrom_of_settled hfront (Machine.force_steady m hfront) rfl, if_pos (by omega),
          Nat.add_zero, (hi.succ hlength).lookup_eq]
        rfl
      · show i + 1 = S.stop i + 1
        rw [hi.stop_eq]
  | succ k ih =>
    by_cases hlength : S.length = some i
    · exact h.nthFrom_ended hlength index (k + 1) info
    · obtain ⟨later, v, hlook, hpassed⟩ := h.goesOn hlength
      obtain ⟨N, hN⟩ := (hlook info).front
      have hindex' : index.toInt = (i + 1 : Nat) + k := by omega
      obtain ⟨w', cells, ⟨M, hM⟩, hforced, hcount⟩ :=
        ih hpassed.waiting (hi.succ hlength) hindex' .plain
      have hplace : i + 1 + k = i + (k + 1) := by omega
      rw [hplace] at hM hcount
      refine ⟨w', cell :: cells, ⟨max N (M + 1), fun m hm n hn => ?_⟩,
        hpassed.forced h.lt_size hforced, ?_⟩
      · obtain ⟨n, rfl⟩ : ∃ j, n = j + 1 := ⟨n - 1, by omega⟩
        have hfront := hN m (by omega) (n + 1) (by omega)
        rw [Seq.nthFrom_of_settled hfront (Machine.force_steady m hfront) rfl, if_neg (by omega)]
        exact hM m (by omega) n (by omega)
      · rw [List.length_cons]
        omega

theorem At.nth (h : S.At 0 cell w) {index : Int64} (hindex : ¬index < 0) (info : Info) :
    ∃ w' cells, ComesTo (fun n => (Seq.lazy cell info).nth (Machine.force n) n index) w
        (S.lookup index index.toInt.toNat) w' ∧
      S.Forced 0 cell w cells w' ∧ cells.length = S.stop index.toInt.toNat + 1 := by
  obtain ⟨w', cells, ⟨N, hN⟩, hforced, hcount⟩ :=
    h.nthFrom .zero (Seq.toInt_of_nonneg hindex) info
  rw [Nat.zero_add] at hN hcount
  refine ⟨w', cells, .of_succ (N := N) fun n hn => ?_, hforced, by rwa [Nat.zero_add] at hcount⟩
  rw [Seq.nth_of_nonneg hindex]
  exact hN (n + 1) (by omega) n hn

/-! ## Rendering -/

section Rendering

variable (S)

/-- Whether there is an element at a place. -/
def longer (n : Nat) : Bool :=
  match S.length with
  | none => true
  | some l => decide (n < l)

/-- The elements from one place to before another. -/
def slice (i n : Nat) : List Value := (List.range' i (n - i)).map S.element

variable {S}

theorem longer_of_ended (hlength : S.length = some i) (k : Nat) : S.longer (i + k) = false := by
  simp [longer, hlength]

theorem Reaches.longer_eq (h : S.Reaches (i + 1)) : S.longer i = true := by
  cases hl : S.length with
  | none => simp [longer, hl]
  | some l =>
    have hlt : i < l := h l hl
    simp [longer, hl, hlt]

theorem stop_of_longer {n : Nat} (h : S.longer n = true) : S.stop n = n := by
  cases hl : S.length with
  | none => simp [stop, hl]
  | some l =>
    have hlt : n < l := by simpa [longer, hl] using h
    simp [stop, hl, Nat.min_eq_left (Nat.le_of_lt hlt)]

theorem length_slice (i n : Nat) : (S.slice i n).length = n - i := by
  simp [slice]

theorem slice_self (i : Nat) : S.slice i i = [] := by
  simp [slice]

theorem slice_succ {n : Nat} (h : i < n) : S.slice i n = S.element i :: S.slice (i + 1) n := by
  obtain ⟨k, rfl⟩ : ∃ k, n = i + 1 + k := ⟨n - (i + 1), by omega⟩
  rw [slice, slice, show i + 1 + k - i = k + 1 by omega, show i + 1 + k - (i + 1) = k by omega,
    List.range'_succ, List.map_cons]

theorem At.unrolls_ended (h : S.At i cell w) (hlength : S.length = some i) (k : Nat) (info : Info) :
    (Seq.lazy cell info).Unrolls
      (fun w' => ∃ cells, S.Forced i cell w cells w' ∧ i + cells.length = S.stop (i + k) + 1)
      (S.longer (i + k)) (S.slice i (S.stop (i + k))) w := by
  rw [stop_of_ended hlength, longer_of_ended hlength, slice_self]
  intro u hu
  obtain ⟨w', hlook, -, hforced⟩ := (h.delay hu).ends hlength
  exact ⟨w', .ended (hlook info), [cell], hforced.delay hu, rfl⟩

/-- The stream unrolls to the elements before a place, and all cells up to it have made their
calls. -/
theorem At.unrolls (h : S.At i cell w) (hi : S.Reaches i) (k : Nat) (info : Info) :
    (Seq.lazy cell info).Unrolls
      (fun w' => ∃ cells, S.Forced i cell w cells w' ∧ i + cells.length = S.stop (i + k) + 1)
      (S.longer (i + k)) (S.slice i (S.stop (i + k))) w := by
  induction k generalizing i cell w info with
  | zero =>
    by_cases hlength : S.length = some i
    · exact h.unrolls_ended hlength 0 info
    · rw [show i + 0 = i from rfl, hi.stop_eq, (hi.succ hlength).longer_eq, slice_self]
      intro u hu
      have hu' := h.delay hu
      obtain ⟨later, w', hlook, hpassed⟩ := hu'.goesOn hlength
      have hforced := hpassed.forced hu'.lt_size (.none hpassed.waiting)
      exact ⟨w', .further (hlook info) rfl rfl, [cell], hforced.delay hu, rfl⟩
  | succ k ih =>
    by_cases hlength : S.length = some i
    · exact h.unrolls_ended hlength (k + 1) info
    · have hi' := hi.succ hlength
      have hplace : i + 1 + k = i + (k + 1) := by omega
      rw [slice_succ (hi'.lt_stop (by omega))]
      intro u hu
      have hu' := h.delay hu
      obtain ⟨later, v, hlook, hpassed⟩ := hu'.goesOn hlength
      have hrest := ih hpassed.waiting hi' .plain
      rw [hplace] at hrest
      refine ⟨_, v, _, v, hlook info, rfl, rfl, .refl _, hrest.mono ?_⟩
      rintro w' ⟨cells, hforced, hcount⟩
      refine ⟨cell :: cells, (hpassed.forced hu'.lt_size hforced).delay hu, ?_⟩
      rw [List.length_cons]
      omega

theorem At.render (h : S.At 0 cell w) {n : Nat} (hn : w.printLength = some n) (escape : Bool)
    (info : Info) : ∃ shown w' cells,
      ComesTo (fun k => (Value.seq (.lazy cell info)).render (Machine.force k) escape k) w
        (.ok shown) w' ∧
      S.Forced 0 cell w cells w' ∧ cells.length = S.stop n + 1 := by
  have hunrolls := h.unrolls .zero n info
  simp only [Nat.zero_add] at hunrolls
  have hlazyFree : ∀ x ∈ S.slice 0 (S.stop n), x.LazyFree := by
    intro x hx
    obtain ⟨j, -, rfl⟩ := List.mem_map.1 hx
    exact S.lazyFree j
  have hroom : ∀ k ∈ w.printLength, (S.slice 0 (S.stop n)).length ≤ k := by
    intro k hk
    cases hn.symm.trans hk
    rw [length_slice]
    exact S.stop_le n
  have hmore : S.longer n = true → w.printLength = some (S.slice 0 (S.stop n)).length := by
    intro hlonger
    rw [length_slice, stop_of_longer hlonger, hn]
    rfl
  obtain ⟨w', ⟨cells, hforced, hcount⟩, hrender⟩ := hunrolls.render escape hlazyFree hroom hmore
  exact ⟨_, w', cells, hrender, hforced, hcount⟩

end Rendering

/-! ## Comparing -/

section Comparing

variable {T : LazyStream base} {c d : LazyRef}

/-- What a look at the cell at a place leaves: the cell is the only one realized from there on, as
long as none but older ones are forced after it. -/
structure Touched (S : LazyStream base) (i : Nat) (c : LazyRef) (w : World)
    (r : Option (Value × Seq)) (v : World) : Prop where
  ended : r = none ↔ S.length = some i
  around : base.Around v
  grown : w.Grown [c] v
  alone {made : List LazyRef} {w' : World} : v.Grown made w' → (∀ e ∈ made, e < w.lazies.size) →
    c ∉ made → S.Realized w' i c [c]

theorem At.touch (h : S.At i c w) (info : Info) : ∃ v r,
    (∃ N, ∀ m ≥ N, ∀ n ≥ N, (Seq.lazy c info).next (Machine.force m) n w = some (.ok r, v)) ∧
      S.Touched i c w r v := by
  by_cases hlength : S.length = some i
  · obtain ⟨v, hlook, hv, hforced⟩ := h.ends hlength
    obtain ⟨N, hN⟩ := (hlook info).front
    have hnext : ∀ m ≥ N, ∀ n ≥ N, (Seq.lazy c info).next (Machine.force m) n w =
        some (.ok none, v) := fun m hm n hn => Seq.next_of_done (hN m hm n hn)
    refine ⟨v, none, ⟨N, hnext⟩, by simp [hlength], hv, hforced.grown, ?_⟩
    intro made w' hgrown _ hmade
    cases hforced.realized with
    | ended hcell _ =>
      have hsame := hgrown.others (Nat.lt_of_lt_of_le h.lt_size hforced.grown.size) hmade
      exact .ended (hsame.trans hcell) hlength
    | further _ hne _ => exact absurd hlength hne
  · obtain ⟨later, v, hlook, hpassed⟩ := h.goesOn hlength
    obtain ⟨N, hN⟩ := (hlook info).front
    have hnext : ∀ m ≥ N, ∀ n ≥ N, (Seq.lazy c info).next (Machine.force m) n w =
        some (.ok (some (S.element i, .lazy later .plain)), v) :=
      fun m hm n hn => Machine.next_of_front (hN m hm n hn) rfl rfl
    refine ⟨v, _, ⟨N, hnext⟩, by simp [hlength], hpassed.waiting.around, hpassed.grown, ?_⟩
    intro made w' hgrown hold hmade
    have hlater : later ∉ made := fun hmem => absurd (hold later hmem) (Nat.not_lt.2 hpassed.new)
    obtain ⟨callee, args, hpending, hwaits⟩ := hpassed.waiting.waits
    have hsame := hgrown.others hpassed.waiting.lt_size hlater
    exact hpassed.realized h.lt_size hgrown hmade (.pending (hsame.trans hpending) hwaits)

/-- The streams differ at a place: one of them ends there, or their elements are not equal. -/
def DiffersAt (S T : LazyStream base) (force : Force) (i : Nat) : Prop :=
  (S.length = some i ↔ T.length ≠ some i) ∨
    S.length ≠ some i ∧ T.length ≠ some i ∧ ¬Equal force (S.element i) (T.element i)

/-- Both streams have elements at a place, and these are equal. -/
def MatchesAt (S T : LazyStream base) (force : Force) (i : Nat) : Prop :=
  S.length ≠ some i ∧ T.length ≠ some i ∧ Equal force (S.element i) (T.element i)

/-- The cells of two streams that have been forced since a world, each once, in whatever order. -/
structure Both (S T : LazyStream base) (i : Nat) (c d : LazyRef) (w : World)
    (cells cells' : List LazyRef) (w' : World) : Prop where
  forced : ∃ made, w.Grown made w' ∧ made.Perm (cells ++ cells') ∧ made.Nodup ∧
    ∀ e ∈ made, e = c ∨ e = d ∨ w.lazies.size ≤ e
  left : S.Realized w' i c cells
  right : T.Realized w' i d cells'

/-- A step along two streams, where comparing their elements takes storage at most. -/
structure BothPassed (S T : LazyStream base) (i : Nat) (c d : LazyRef) (w : World) (c' d' : LazyRef)
    (w' : World) : Prop where
  passed : ∃ v u, S.Passed i c w c' v ∧ T.Passed i d v d' u ∧ u.Ahead w'
  left : S.At (i + 1) c' w'
  right : T.At (i + 1) d' w'
  apart : c' ≠ d'

theorem Both.none (hS : S.At i c w) (hT : T.At i d w) : S.Both T i c d w [] [] w where
  forced := ⟨[], .refl w, .nil, .nil, by simp⟩
  left := (Forced.none hS).realized
  right := (Forced.none hT).realized

theorem BothPassed.both {c' d' : LazyRef} {cells' : List LazyRef} (hcd : c ≠ d)
    (hc : c < w.lazies.size) (hd : d < w.lazies.size) (h : S.BothPassed T i c d w c' d' v)
    (hrest : S.Both T (i + 1) c' d' v cells cells' w') :
    S.Both T i c d w (c :: cells) (d :: cells') w' := by
  obtain ⟨u, u', hpassed, hpassed', hahead⟩ := h.passed
  obtain ⟨made, hgrown, hperm, hnodup, hnew⟩ := hrest.forced
  have hgrown' : u'.Grown made w' := hahead.grown.trans hgrown
  have hnew' : ∀ e ∈ made, w.lazies.size ≤ e := by
    have hsize := hpassed.grown.size
    intro e he
    rcases hnew e he with rfl | rfl | hle
    · exact hpassed.new
    · exact Nat.le_trans hsize hpassed'.new
    · exact Nat.le_trans (Nat.le_trans hsize hpassed'.grown.size)
        (Nat.le_trans hahead.grown.size hle)
  have hold {e : LazyRef} (he : e < w.lazies.size) : e ∉ made :=
    fun hmem => absurd (hnew' e hmem) (Nat.not_le.2 he)
  refine ⟨⟨c :: d :: made, hpassed.grown.trans (hpassed'.grown.trans hgrown'), ?_, ?_, ?_⟩, ?_, ?_⟩
  · exact ((hperm.cons d).trans List.perm_middle.symm).cons c
  · simp [hcd, hold hc, hold hd, hnodup]
  · intro e he
    simp only [List.mem_cons] at he
    exact he.imp_right fun he => he.imp_right (hnew' e)
  · refine hpassed.realized hc (hpassed'.grown.trans hgrown') ?_ hrest.left
    simp [hcd, hold hc]
  · exact hpassed'.realized (Nat.lt_of_lt_of_le hd hpassed.grown.size) hgrown' (hold hd) hrest.right

/-- Where both streams go on, their elements are compared. -/
theorem At.compare (hS : S.At i c w) (hT : T.At i d w) (hcd : c ≠ d) (hlength : S.length ≠ some i)
    (hlength' : T.length ≠ some i) (info info' : Info) : ∃ c' d' v,
      S.BothPassed T i c d w c' d' v ∧
      ∃ N, ∀ m ≥ N, ∀ l ≥ N, ∀ n ≥ N, (Seq.lazy c info).equal (Machine.force m)
        (Value.equals (Machine.force m) l) (n + 1) (.lazy d info') w =
          if agree (S.element i) (T.element i) then (Seq.lazy c' .plain).equal (Machine.force m)
            (Value.equals (Machine.force m) l) n (.lazy d' .plain) v
          else some (.ok false, v) := by
  obtain ⟨c', u, hlook, hpassed⟩ := hS.goesOn hlength
  have hT' : T.At i d u :=
    hT.of_grown hpassed.grown hpassed.waiting.around (by simp [hcd.symm])
  obtain ⟨d', u', hlook', hpassed'⟩ := hT'.goesOn hlength'
  obtain ⟨K, v, hv, hK⟩ := Value.equals_reaches (S.lazyFree i) (T.lazyFree i) u'
  obtain ⟨N, hN⟩ := (hlook info).front
  obtain ⟨M, hM⟩ := (hlook' info').front
  have hc' : c' ∉ [d] := by
    have hle := hpassed.new
    have hlt := hT.lt_size
    simp only [List.mem_singleton]
    rintro rfl
    exact absurd hle (Nat.not_le.2 hlt)
  have hleft := hpassed.waiting.of_grown hpassed'.grown hpassed'.waiting.around hc'
  refine ⟨c', d', v,
    ⟨⟨u, u', hpassed, hpassed', hv⟩, hleft.delay hv, hpassed'.waiting.delay hv, ?_⟩,
    max N (max M K), fun m hm l hl n hn => ?_⟩
  · rintro rfl
    exact absurd hpassed'.new (Nat.not_le.2 hpassed.waiting.lt_size)
  · have hnext := Machine.next_of_front (hN m (by omega) n (by omega)) rfl rfl
    have hnext' := Machine.next_of_front (hM m (by omega) n (by omega)) rfl rfl
    exact Seq.equal_of_next hnext hnext' (hK m (by omega) l (by omega))

/-- Where one of two streams ends, nothing is compared. -/
theorem At.compare_ended (hS : S.At i c w) (hT : T.At i d w) (hcd : c ≠ d)
    (hlength : S.length = some i ↔ T.length ≠ some i) (info info' : Info) : ∃ w',
      (∃ N, ∀ m ≥ N, ∀ n ≥ N, ∀ eq, (Seq.lazy c info).equal (Machine.force m) eq (n + 1)
        (.lazy d info') w = some (.ok false, w')) ∧
      S.Both T i c d w [c] [d] w' := by
  obtain ⟨v, a, ⟨N, hN⟩, htouched⟩ := hS.touch info
  have hT' : T.At i d v := hT.of_grown htouched.grown htouched.around (by simp [hcd.symm])
  obtain ⟨u, b, ⟨M, hM⟩, htouched'⟩ := hT'.touch info'
  have hab : a = none ↔ b ≠ none := by rw [htouched.ended, hlength, Ne, Ne, htouched'.ended]
  refine ⟨u, ⟨max N M, fun m hm n hn eq => ?_⟩, ⟨[c, d], ?_, .refl _, by simp [hcd], ?_⟩, ?_, ?_⟩
  · exact Seq.equal_of_ended (hN m (by omega) n (by omega)) (hM m (by omega) n (by omega)) hab
  · exact htouched.grown.trans htouched'.grown
  · intro e he
    simp only [List.mem_cons, List.not_mem_nil, or_false] at he
    exact he.imp_right .inl
  · apply htouched.alone htouched'.grown
    · intro e he
      rw [List.mem_singleton.1 he]
      exact hT.lt_size
    · simp [hcd]
  · exact htouched'.alone (.refl u) (by simp) (by simp)

/-- Streams that are different at a place and match until then are compared up to that place. -/
theorem At.differ (hS : S.At i c w) (hT : T.At i d w) (hcd : c ≠ d) {force : Force} {k : Nat}
    (hbefore : ∀ j < k, S.MatchesAt T force (i + j)) (hdiffers : S.DiffersAt T force (i + k))
    (info info' : Info) : ∃ w' cells cells',
      (∃ N, ∀ m ≥ N, ∀ l ≥ N, ∀ n ≥ N, (Seq.lazy c info).equal (Machine.force m)
        (Value.equals (Machine.force m) l) (n + 1) (.lazy d info') w = some (.ok false, w')) ∧
      S.Both T i c d w cells cells' w' ∧ cells.length = k + 1 ∧ cells'.length = k + 1 := by
  induction k generalizing i c d w info info' with
  | zero =>
    rcases hdiffers with hended | ⟨hlength, hlength', hequal⟩
    · obtain ⟨w', ⟨N, hN⟩, hboth⟩ := hS.compare_ended hT hcd hended info info'
      exact ⟨w', [c], [d], ⟨N, fun m hm l _ n hn => hN m hm n hn _⟩, hboth, rfl, rfl⟩
    · obtain ⟨c', d', v, hpassed, N, hN⟩ := hS.compare hT hcd hlength hlength' info info'
      have hagree : agree (S.element i) (T.element i) = false := by
        rw [Value.equal_iff_agree force (S.lazyFree _) (T.lazyFree _)] at hequal
        exact Bool.eq_false_iff.2 hequal
      refine ⟨v, [c], [d], ⟨N, fun m hm l hl n hn => ?_⟩,
        hpassed.both hcd hS.lt_size hT.lt_size (.none hpassed.left hpassed.right), rfl, rfl⟩
      rw [hN m hm l hl n hn, hagree]
      rfl
  | succ k ih =>
    obtain ⟨hlength, hlength', hequal⟩ := hbefore 0 (Nat.succ_pos k)
    obtain ⟨c', d', v, hpassed, N, hN⟩ := hS.compare hT hcd hlength hlength' info info'
    have hagree : agree (S.element i) (T.element i) = true :=
      (Value.equal_iff_agree force (S.lazyFree _) (T.lazyFree _)).1 hequal
    have hplace (j : Nat) : i + 1 + j = i + (j + 1) := by omega
    obtain ⟨w', cells, cells', ⟨M, hM⟩, hboth, hcount, hcount'⟩ := ih hpassed.left hpassed.right
      hpassed.apart (fun j hj => by rw [hplace]; exact hbefore (j + 1) (by omega))
      (by rw [hplace]; exact hdiffers) .plain .plain
    refine ⟨w', c :: cells, d :: cells', ⟨max N (M + 1), fun m hm l hl n hn => ?_⟩,
      hpassed.both hcd hS.lt_size hT.lt_size hboth, by simp [hcount], by simp [hcount']⟩
    obtain ⟨n, rfl⟩ : ∃ j, n = j + 1 := ⟨n - 1, by omega⟩
    rw [hN m (by omega) l (by omega) (n + 1) (by omega), hagree, if_pos rfl]
    exact hM m (by omega) l (by omega) n (by omega)

theorem At.equals (hS : S.At 0 c w) (hT : T.At 0 d w) (hcd : c ≠ d) {force : Force} {i : Nat}
    (hbefore : ∀ j < i, S.MatchesAt T force j) (hdiffers : S.DiffersAt T force i)
    (info info' : Info) : ∃ w' cells cells',
      ComesTo (fun n => (Value.seq (.lazy c info)).equals (Machine.force n) n
        (.seq (.lazy d info'))) w (.ok false) w' ∧
      S.Both T 0 c d w cells cells' w' ∧ cells.length = i + 1 ∧ cells'.length = i + 1 := by
  have hplace (j : Nat) : 0 + j = j := Nat.zero_add j
  obtain ⟨w', cells, cells', ⟨N, hN⟩, hboth⟩ := hS.differ hT hcd
    (fun j hj => by rw [hplace]; exact hbefore j hj) (by rw [hplace]; exact hdiffers) info info'
  refine ⟨w', cells, cells', .of_succ (N := N + 1) fun n hn => ?_, hboth⟩
  obtain ⟨n, rfl⟩ : ∃ j, n = j + 1 := ⟨n - 1, by omega⟩
  have hsame : (Seq.lazy c info).same (.lazy d info') = false := beq_false_of_ne hcd
  rw [Value.equals, hsame]
  exact hN (n + 1 + 1) (by omega) (n + 1) (by omega) n (by omega)

end Comparing

end LazyStream

/-- Indexing at a place and rendering with a print length come to an end on every stream, after just
the calls of the cells up to that place or to the end. So does comparing two streams that share no
cell, after the calls of the cells of both up to the first place where they are different. No other
cell is realized. -/
theorem stream_realized_as_needed {base : World} (S T : LazyStream base) {c d : LazyRef} {w : World}
    (hS : S.At 0 c w) (info info' : Info) :
    (∀ index : Int64, ¬index < 0 → ∃ w' cells,
      ComesTo (fun n => (Seq.lazy c info).nth (Machine.force n) n index) w
        (S.lookup index index.toInt.toNat) w' ∧
      S.Forced 0 c w cells w' ∧ cells.length = S.stop index.toInt.toNat + 1) ∧
    (∀ (n : Nat) (escape : Bool), w.printLength = some n → ∃ shown w' cells,
      ComesTo (fun k => (Value.seq (.lazy c info)).render (Machine.force k) escape k) w
        (.ok shown) w' ∧
      S.Forced 0 c w cells w' ∧ cells.length = S.stop n + 1) ∧
    ∀ (force : Force) (i : Nat), T.At 0 d w → c ≠ d → (∀ j < i, S.MatchesAt T force j) →
      S.DiffersAt T force i → ∃ w' cells cells',
        ComesTo (fun n => (Value.seq (.lazy c info)).equals (Machine.force n) n
          (.seq (.lazy d info'))) w (.ok false) w' ∧
        S.Both T 0 c d w cells cells' w' ∧ cells.length = i + 1 ∧ cells'.length = i + 1 := by
  refine ⟨?_, ?_, ?_⟩
  · intro index hindex
    exact hS.nth hindex info
  · intro n escape hn
    exact hS.render hn escape info
  · intro force i hT hcd hbefore hdiffers
    exact hS.equals hT hcd hbefore hdiffers info info'

/-! ## Streams of integers -/

namespace LazyStream

abbrev counting : Proc := ⟨"lazy-seq", 0⟩

def countingWorld : World := { natives := ⟨#[Stream.counting 0 counting]⟩, printLength := some 3 }

/-- The world after a call that was counted. -/
def counted (w : World) : World :=
  { w with counters := w.counters.set 0 ((w.counters.get? 0).getD 0 + 1) }

/-- The world after a counted call that gave an element before a new cell. -/
def continued (w : World) (args : List Value) : World :=
  { counted w with lazies := w.lazies.push (.pending (.proc counting) args),
                   storages := w.storages + 1 }

theorem lazyFree_int (x : Int64) : (Value.int x).LazyFree :=
  Value.everywhere_iff.2 ⟨rfl, by simp [Value.parts]⟩

/-- The integers from zero on. -/
def naturals : LazyStream countingWorld where
  element i := .int (Int64.ofNat i)
  length := none
  Waits i callee args := callee = .proc counting ∧ args = [.int (Int64.ofNat i), .nil]
  lazyFree i := lazyFree_int _
  ended h := by cases h
  next := by
    rintro i _ _ w - ⟨rfl, rfl⟩ ⟨_, _, storages, _, _, rfl⟩
    refine ⟨storages, .proc counting, [.int (Int64.ofNat i + 1), .nil], continued _ _,
      .of_succ (N := 1) fun n hn => ?_, ⟨_, _, _, rfl⟩, rfl, ?_⟩
    · obtain ⟨n, rfl⟩ : ∃ k, n = k + 1 := ⟨n - 1, by omega⟩
      rfl
    · rw [Int64.ofNat_add i 1]
      rfl

/-- Zero and one. -/
def bits : LazyStream countingWorld where
  element i := .int (Int64.ofNat i)
  length := some 2
  Waits i callee args :=
    i ≤ 2 ∧ callee = .proc counting ∧ args = [.int (Int64.ofNat i), .int 2]
  lazyFree i := lazyFree_int _
  ended := by
    rintro i _ _ w ⟨⟩ ⟨-, rfl, rfl⟩ ⟨_, _, _, _, _, rfl⟩
    refine ⟨counted _, .of_succ (N := 1) fun n hn => ?_, ⟨_, _, _, rfl⟩⟩
    obtain ⟨n, rfl⟩ : ∃ k, n = k + 1 := ⟨n - 1, by omega⟩
    rfl
  next := by
    rintro i _ _ w hi ⟨hle, rfl, rfl⟩ ⟨_, _, storages, _, _, rfl⟩
    have hcases : i = 0 ∨ i = 1 := by
      have hne : i ≠ 2 := fun h => hi (by rw [h])
      omega
    refine ⟨storages, .proc counting, [.int (Int64.ofNat (i + 1)), .int 2], continued _ _,
      .of_succ (N := 1) fun n hn => ?_, ⟨_, _, _, rfl⟩, by omega, rfl, rfl⟩
    obtain ⟨n, rfl⟩ : ∃ k, n = k + 1 := ⟨n - 1, by omega⟩
    rcases hcases with rfl | rfl <;> rfl

end LazyStream

/-- The stream of all integers from zero on is indexed and rendered, and compared with one of the
first two. -/
theorem stream_realized_as_needed_infinite :
    let S := LazyStream.naturals
    let T := LazyStream.bits
    let w : World := { LazyStream.countingWorld with
      lazies := ⟨#[.pending (.proc LazyStream.counting) [.int 0, .nil],
        .pending (.proc LazyStream.counting) [.int 0, .int 2]]⟩ }
    (S.At 0 0 w ∧ T.At 0 1 w ∧ (∀ j < 2, S.MatchesAt T (Machine.force 0) j) ∧
      S.DiffersAt T (Machine.force 0) 2) ∧
    (∃ w' cells, ComesTo (fun n => (Seq.lazy 0 .plain).nth (Machine.force n) n 5) w
      (.ok (.int 5)) w' ∧ S.Forced 0 0 w cells w' ∧ cells.length = 6) ∧
    (∃ shown w' cells,
      ComesTo (fun k => (Value.seq (.lazy 0 .plain)).render (Machine.force k) true k) w
        (.ok shown) w' ∧ S.Forced 0 0 w cells w' ∧ cells.length = 4) ∧
    ∃ w' cells cells', ComesTo (fun n => (Value.seq (.lazy 0 .plain)).equals (Machine.force n) n
        (.seq (.lazy 1 .plain))) w (.ok false) w' ∧
      S.Both T 0 0 1 w cells cells' w' ∧ cells.length = 3 ∧ cells'.length = 3 := by
  intro S T w
  have hS : S.At 0 0 w := ⟨⟨_, _, _, _, _, rfl⟩, _, _, rfl, rfl, rfl⟩
  have hT : T.At 0 1 w := ⟨⟨_, _, _, _, _, rfl⟩, _, _, rfl, Nat.zero_le 2, rfl, rfl⟩
  have hbefore : ∀ j < 2, S.MatchesAt T (Machine.force 0) j := by
    intro j hj
    have hequal := Value.equal_iff_agree (Machine.force 0) (S.lazyFree j) (T.lazyFree j)
    obtain rfl | rfl : j = 0 ∨ j = 1 := by omega
    · exact ⟨by decide, by decide, hequal.2 (by decide)⟩
    · exact ⟨by decide, by decide, hequal.2 (by decide)⟩
  have hdiffers : S.DiffersAt T (Machine.force 0) 2 := .inl (by decide)
  obtain ⟨hnth, hrender, hequals⟩ := stream_realized_as_needed S T hS .plain .plain
  exact ⟨⟨hS, hT, hbefore, hdiffers⟩, hnth 5 (by decide), hrender 3 true rfl,
    hequals (Machine.force 0) 2 hT (by decide) hbefore hdiffers⟩

end LispKernel
