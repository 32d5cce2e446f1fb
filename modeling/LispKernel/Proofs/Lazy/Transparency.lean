import LispKernel.Proofs.Hash.Agreement
import LispKernel.Proofs.Lazy.Supply
import LispKernel.Proofs.Render.Text

/-!
# Laziness is transparent

Comparing, hashing, rendering, counting and indexing values with lazy cells gives the same answers
whichever of the cells are realized and in whichever order they were. These are the answers for the
values without cells in which every cell is replaced by the elements of its value.
-/
namespace LispKernel

open List (Forall₂)
open Relation (TransGen)
open Run (Alike Refines SettlesIn)
open Value (Copy LazyFree agree digest everywhere_iff)

/-! ## Observations -/

/-- What can be observed of two values and a sequence. -/
structure Answers where
  equal : Bool
  code : UInt32
  text : Bool → String
  count : Nat
  element : Int64 → Except Error Value
  elements : List Value

/-- The answers for values without lazy cells. -/
def Answers.of (single : Identity → UInt32) (limit : Option Nat) (a b : Value) (s : Seq) :
    Answers where
  equal := agree a b
  code := digest single a
  text escape := Value.text escape limit a
  count := s.items.length
  element index := Seq.elementAt index s.items
  elements := s.items

/-- In the worlds of an invariant all observations end, given enough fuel, with the given answers.
The elements that are found are compared after a replacement. -/
structure Observed (I : World → Prop) (force : Nat → Force) (single : Identity → UInt32)
    (replace : Value → Value) (a b : Value) (s : Seq) (answers : Answers) : Prop where
  equals : SettlesIn I (fun n => a.equals (force n) n b) (· = answers.equal)
  hash : SettlesIn I (fun n => a.hash (force n) single n) (· = answers.code)
  render (escape : Bool) :
    SettlesIn I (fun n => a.render (force n) escape n) (· = answers.text escape)
  count : SettlesIn I (fun n => s.count (force n) n) (· = answers.count)
  nth (index : Int64) : SettlesIn I (fun n => (s.nth (force n) n index).attempt)
    (Alike (fun x y => Copy (replace x) y) · (answers.element index))
  toList : SettlesIn I (fun n => s.toList (force n) n)
    (Forall₂ (fun x y => Copy (replace x) y) · answers.elements)

section

variable {I : World → Prop} {force : Nat → Force} {known : LazyRef → Prop} {C : Value → Prop}
  {shown : Showing} {K N : Nat}

/-- Observations have the answers for the values with their cells replaced if the cells show what
stands in for them. -/
theorem observed_of_shows (single : Identity → UInt32) {limit : Option Nat}
    (h : ∀ n ≥ N, Shows I (force n) known C shown K) (hC : Faithful C shown)
    (hforce : ∀ {n m}, n ≤ m → ∀ c, Refines (fun _ _ => True) (force n c) (force m c))
    (hlimit : ∀ w, I w → w.printLength = limit) {a b : Value} {s : Seq} (ha : C a) (hb : C b)
    (hs : C (.seq s)) : Observed I force single (Value.expand shown) a b s
      (.of single limit (a.expand shown) (b.expand shown) (s.expand shown)) := by
  -- with fuel for the weights and for reaching the cells every observation returns
  have hreturns {α : Type} {x : Nat → Run α} {P : α → Prop}
      (hx : ∀ {n m}, n ≤ m → Refines (fun _ _ => True) (x n) (x m))
      (hP : ∀ n, Shows I (force n) known C shown K → (a.expand shown).weight + K ≤ n →
        (b.expand shown).weight + K ≤ n → (s.expand shown).items.length + K + 1 < n →
        (x n).ReturnsIn I P) : SettlesIn I x P := by
    apply SettlesIn.of_returnsIn hx (N := N + (a.expand shown).weight + (b.expand shown).weight +
      (s.expand shown).items.length + K + 2)
    exact fun n hn => hP n (h n (by omega)) (by omega) (by omega) (by omega)
  constructor
  case equals =>
    apply hreturns fun hn => Value.equals_congr Refines.any (hforce hn) hn a b
    exact fun n h hna hnb _ => Value.equals_decides_expand h hC n a b ⟨ha, hna⟩ ⟨hb, hnb⟩
  case hash =>
    apply hreturns fun hn => Value.hash_congr Refines.any (hforce hn) hn single a
    exact fun n h hna _ _ => Value.hash_returns_expand single h ha hna
  case render =>
    intro escape
    apply hreturns fun hn => Value.render_congr Refines.any (hforce hn) hn escape a
    exact fun n h hna _ _ => Value.render_returns_expand escape limit h hlimit ha hna
  case count =>
    apply hreturns fun hn => Seq.countFrom_congr Refines.any (hforce hn) hn 0 s
    exact fun n h _ _ hns => Seq.count_returns h.toWalkable (h.over hs) hns
  case nth =>
    intro index
    apply hreturns fun hn => (Seq.nth_congr Refines.any (hforce hn) hn s index).attempt
    intro n h _ _ hns
    exact (Seq.nth_returns h.toWalkable (h.over hs) hns index).mono fun r hr => hr.mono fun x y hxy => hxy.2
  case toList =>
    apply hreturns fun hn => Seq.toList_congr Refines.any (hforce hn) hn s
    intro n h _ _ hns
    exact (Seq.toList_returns h.toWalkable (h.over hs) hns).mono fun xs hxs => hxs.imp fun x y hxy => hxy.2

end

/-- Observations of values without lazy cells, however cells would be realized. -/
theorem observed_of_lazyFree (force : Force) (single : Identity → UInt32) (limit : Option Nat)
    {a b : Value} {s : Seq} (ha : a.LazyFree) (hb : b.LazyFree) (hs : (Value.seq s).LazyFree) :
    Observed (·.printLength = limit) (fun _ => force) single id a b s
      (.of single limit a b s) := by
  have hshows : Shows (·.printLength = limit) force (fun _ => False) LazyFree Seq.lazy 0 :=
    .nothing force fun w hw => hw
  have hexpand : Value.expand Seq.lazy = id := funext Value.expand_lazy
  have hrun : Observed _ (fun _ => force) _ _ a b s _ :=
    observed_of_shows (N := 0) single (fun _ _ => hshows) (.unchanged _)
      (fun _ _ _ _ _ h => ⟨h, trivial⟩) (fun _ hw => hw) ha hb hs
  rwa [a.expand_lazy, b.expand_lazy, s.expand_lazy, hexpand] at hrun

/-! ## Transparency -/

/-- For values whose cells are of a regular supply there is one record of answers: the one that is
observed at every stage, and the one that is observed of the values in which the cells are replaced,
where no cell is left. -/
theorem lazy_transparent {S : Supply} {base : World} (hS : S.Regular base) {σ : Store}
    (hσ : ∀ c ∈ S.cells, (Value.seq (S.view c)).Everywhere σ.Holds) (single : Identity → UInt32)
    {a b : Value} {s : Seq} (ha : S.Serves σ a) (hb : S.Serves σ b) (hs : S.Serves σ (.seq s)) :
    ((a.expand S.shown).LazyFree ∧ (b.expand S.shown).LazyFree ∧
      (Value.seq (s.expand S.shown)).LazyFree) ∧
    ∃ answers, Observed (S.Stage base) Machine.force single (Value.expand S.shown) a b s answers ∧
      ∀ force, Observed (·.printLength = base.printLength) (fun _ => force) single id
        (a.expand S.shown) (b.expand S.shown) (s.expand S.shown) answers := by
  have hfree {v : Value} (hv : S.Serves σ v) : (v.expand S.shown).LazyFree :=
    Value.lazyFree_expand hv.cells fun c i hc => hS.shown_lazyFree hc i
  obtain ⟨N, hN⟩ := hS.shows hσ
  have hlimit : ∀ w, S.Stage base w → w.printLength = base.printLength := by
    intro w hw
    obtain ⟨lazies, productions, storages, rfl⟩ := hw.rest
    rfl
  refine ⟨⟨hfree ha, hfree hb, hfree hs⟩, .of single base.printLength (a.expand S.shown)
    (b.expand S.shown) (s.expand S.shown), ?_, fun force => ?_⟩
  · exact observed_of_shows single hN (hS.faithful hσ)
      (fun hn => (Machine.refines Steps.any hn).2.2) hlimit ha hb hs
  · exact observed_of_lazyFree force single base.printLength (hfree ha) (hfree hb) (hfree hs)

/-- A cell whose value is another cell, whose value is a vector with a third cell in it, whose value
is a string. -/
theorem lazy_transparent_nested :
    let cell (c : LazyRef) : Value := .seq (.lazy c .plain)
    let v : Vec := ⟨⟨11, [cell 0, .int 7]⟩, .plain⟩
    let value : LazyRef → Value
      | 0 => .string "ab"
      | 1 => .vector v
      | _ => cell 1
    let callee (c : LazyRef) : Value := .proc ⟨"p", c⟩
    let S : Supply := ⟨Finset.range 3, callee, fun _ => [], value, fun _ => 10⟩
    let σ : Store := ⟨fun _ => (.nil, .empty .plain),
      fun k => if k = 10 then [.char 'a', .char 'b'] else v.items, fun _ => []⟩
    let base : World :=
      { natives := ⟨#[fun _ => pure (value 0), fun _ => pure (value 1), fun _ => pure (value 2)]⟩
        lazies := ⟨#[.pending (callee 0) [], .realized v.seq, .pending (callee 2) []]⟩ }
    (S.Stage base base ∧ S.Regular base ∧
      (∀ c ∈ S.cells, (Value.seq (S.view c)).Everywhere σ.Holds) ∧
      S.Serves σ (cell 2) ∧ S.Serves σ (.vector v)) ∧
    ∀ single, ∃ answers,
      Observed (S.Stage base) Machine.force single (Value.expand S.shown) (cell 2) (.vector v)
        (.lazy 2 .plain) answers ∧
      ∀ force, Observed (·.printLength = none) (fun _ => force) single id
        ((cell 2).expand S.shown) ((Value.vector v).expand S.shown)
        ((Seq.lazy 2 .plain).expand S.shown) answers := by
  intro cell v value callee S σ base
  let chars : Seq := .view .array 10 ⟨#[.char 'a', .char 'b'], 0⟩ .plain
  -- what occurs in the values
  have hatom {P : Value → Prop} {a : Atom} (h : P (.atom a)) : (Value.atom a).Everywhere P :=
    everywhere_iff.2 ⟨h, by simp [Value.parts]⟩
  have hcell {P : Value → Prop} {c : LazyRef} (h : P (cell c)) : (cell c).Everywhere P :=
    everywhere_iff.2 ⟨h, by simp [cell, Value.parts]⟩
  have hchars {P : Value → Prop} (h : P (.seq chars)) (ha : P (.char 'a')) (hb : P (.char 'b')) :
      (Value.seq chars).Everywhere P :=
    everywhere_iff.2 ⟨h, by simpa [Value.parts, Slice.toList, chars] using ⟨hatom ha, hatom hb⟩⟩
  have hvector {P : Value → Prop} (h : P (.vector v)) (hc : P (cell 0)) (hi : P (.int 7)) :
      (Value.vector v).Everywhere P :=
    everywhere_iff.2 ⟨h, by simpa [Value.parts, Vec.items, v] using ⟨hcell hc, hatom hi⟩⟩
  have hcells : ∀ c ∈ S.cells, c = 0 ∨ c = 1 ∨ c = 2 := by decide
  -- every cell that occurs in the value of a cell has a smaller number
  have hvalue : ∀ c ∈ S.cells, (value c).CellsIn fun d => d < c := by
    intro c hc
    rcases hcells c hc with rfl | rfl | rfl
    · exact hatom (by simp [Value.cell?])
    · exact hvector (by simp [Value.cell?]) (by simp [cell, Value.cell?]) (by simp [Value.cell?])
    · exact hcell (by simp [cell, Value.cell?])
  have hless {c d : LazyRef} (h : TransGen S.Uses c d) : d < c := by
    have huses {c d : LazyRef} (h : S.Uses c d) : d < c := by
      obtain ⟨hc, info, hd⟩ := h
      exact hvalue c hc _ hd d rfl
    induction h with
    | single h => exact huses h
    | tail _ h ih => exact (huses h).trans ih
  have hS : S.Regular base := by
    constructor
    case pure =>
      intro c hc
      refine ⟨1, fun w hw => ?_⟩
      obtain ⟨lazies, productions, storages, rfl⟩ := hw.rest
      refine ⟨S.value c, _, ?_, hw, rfl⟩
      rcases hcells c hc with rfl | rfl | rfl <;> rfl
    case seqable =>
      intro c hc
      rcases hcells c hc with rfl | rfl | rfl <;> simp [S, value, cell, Value.view?]
    case closed =>
      intro c hc x hx d hd
      exact Finset.mem_range.2 ((hvalue c hc x hx d hd).trans (Finset.mem_range.1 hc))
    case acyclic => exact fun c hc => Nat.lt_irrefl c (hless hc)
  have hσ : ∀ c ∈ S.cells, (Value.seq (S.view c)).Everywhere σ.Holds := by
    intro c hc
    rcases hcells c hc with rfl | rfl | rfl
    · exact hchars rfl trivial trivial
    · have hparts := hvector (P := σ.Holds) trivial trivial trivial
      exact everywhere_iff.2 ⟨rfl, fun x hx => hparts.of_mem hx⟩
    · exact hcell trivial
  -- with the cells replaced there are two characters and a number
  have hitems : ∀ x ∈ [Value.seq chars, .int 7], x.NaNFree := by
    simpa using ⟨hchars rfl rfl rfl, hatom rfl⟩
  have hfirst : S.Serves σ (cell 2) :=
    ⟨hcell (by simp [cell, Value.cell?, S]), hcell trivial, everywhere_iff.2 ⟨rfl, hitems⟩⟩
  have hsecond : S.Serves σ (.vector v) :=
    ⟨hvector (by simp [Value.cell?]) (by simp [cell, Value.cell?, S]) (by simp [Value.cell?]),
      hvector trivial trivial trivial, everywhere_iff.2 ⟨rfl, hitems⟩⟩
  have hstage : S.Stage base base := by
    refine ⟨⟨_, _, _, rfl⟩, fun _ => rfl, fun {c} hc => ?_⟩
    rcases hcells c hc with rfl | rfl | rfl
    · exact .inl rfl
    · exact .inr ⟨v.seq, 0, rfl, rfl⟩
    · exact .inl rfl
  exact ⟨⟨hstage, hS, hσ, hfirst, hsecond⟩,
    fun single => (lazy_transparent hS hσ single hfirst hsecond hfirst).2⟩

end LispKernel
