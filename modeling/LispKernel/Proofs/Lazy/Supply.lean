import Mathlib.Data.Finset.Card
import Mathlib.Data.Finset.Lattice.Fold
import Mathlib.Logic.Relation
import LispKernel.Proofs.Equality.Relation
import LispKernel.Proofs.Refinement.Machine

/-!
# Cells with fixed values

A supply is a collection of lazy cells each of whose calls always gives the same value, in which
further cells of the supply may occur. If no cell is reached from its own value, every cell can be
replaced by the elements of its value, in which the cells are replaced in turn. Whichever cells are
realized already, looking at a cell shows the elements of what stands in for it.
-/
namespace LispKernel

open Relation (TransGen)
open Value (CellsIn Occurs everywhere_iff)

/-! ## Views of values -/

namespace Value

/-- The cells in a view of a value are those in the value. -/
theorem CellsIn.view? {known : LazyRef → Prop} {v : Value} (hv : v.CellsIn known) {k : Storage}
    {s : Seq} (h : v.view? k = some s) : (seq s).CellsIn known := by
  have hempty : (seq (.empty .plain)).CellsIn known :=
    everywhere_iff.2 ⟨by simp [cell?], by simp [parts]⟩
  have hslice {storage : Storage} {slice : Slice} (hitems : ∀ x ∈ slice.toList, x.CellsIn known) :
      (seq (.ofSlice .vector storage slice)).CellsIn known :=
    Seq.ofSlice_cases (fun _ => everywhere_iff.2 ⟨by simp [cell?], hitems⟩) fun _ => hempty
  have hentries {storage : Storage} {slice : EntrySlice}
      (hflat : ∀ x ∈ slice.flat, x.CellsIn known) :
      (seq (.ofEntries storage slice)).CellsIn known :=
    Seq.ofEntries_cases (fun _ => everywhere_iff.2 ⟨by simp [cell?], hflat⟩) fun _ => hempty
  unfold Value.view? at h
  split at h <;> cases h
  case h_1 | h_2 => exact hempty
  case h_3 =>
    refine everywhere_iff.2 ⟨by simp [cell?], ?_⟩
    simp only [parts, Slice.toList_whole, List.forall_mem_map]
    exact fun c _ => everywhere_iff.2 ⟨by simp [cell?], by simp [parts]⟩
  case h_4 v => exact hslice fun x hx => hv.of_mem hx
  case h_5 m => exact hentries fun x hx => hv.of_mem hx
  case h_6 s => exact hslice fun x hx => hv.of_mem hx
  case h_7 s => exact hv

end Value

/-! ## Supplies -/

/-- Lazy cells, each with the call that it makes and the value that the call gives. If the value is
a string, its characters are shown in the given storage. -/
structure Supply where
  cells : Finset LazyRef
  callee : LazyRef → Value
  args : LazyRef → List Value
  value : LazyRef → Value
  storage : LazyRef → Storage

namespace Supply

variable (S : Supply)

/-- The elements of a cell's value. -/
def view (c : LazyRef) : Seq := ((S.value c).view? (S.storage c)).getD (.empty .plain)

/-- The second cell occurs in the value of the first. -/
def Uses (c d : LazyRef) : Prop := c ∈ S.cells ∧ ∃ info, Occurs (.seq (.lazy d info)) (S.value c)

/-- The elements of a cell's value with its cells replaced, so many times over. -/
def shownAt : Nat → LazyRef → Seq
  | 0, _ => .empty .plain
  | k + 1, c => (S.view c).expand fun d _ => shownAt k d

/-- What stands in for a cell. In as many rounds as there are cells all of them are replaced. -/
def shown : Showing := fun c _ => S.shownAt S.cells.card c

/-- A world with some of the cells realized, in some order, and otherwise as the given one. -/
structure Stage (base w : World) : Prop where
  rest : ∃ lazies productions storages, w = { base with lazies, productions, storages }
  other {c : LazyRef} : c ∉ S.cells → w.lazies.get? c = base.lazies.get? c
  cell {c : LazyRef} : c ∈ S.cells →
    w.lazies.get? c = some (.pending (S.callee c) (S.args c)) ∨
      ∃ s k, w.lazies.get? c = some (.realized s) ∧ (S.value c).view? k = some s

/-- The calls of the cells give their values whichever cells are realized, the values have elements,
and no cell is reached from its own value. -/
structure Regular (base : World) : Prop where
  pure {c : LazyRef} : c ∈ S.cells → ∃ n,
    (Machine.call n (S.callee c) (S.args c)).ReturnsIn (S.Stage base) (· = S.value c)
  seqable {c : LazyRef} : c ∈ S.cells → (S.value c).view? (S.storage c) ≠ none
  closed {c : LazyRef} : c ∈ S.cells → (S.value c).CellsIn (· ∈ S.cells)
  acyclic (c : LazyRef) : ¬ TransGen S.Uses c c

variable {S} {base : World}

/-! ## Replacing cells -/

/-- How many cells are reached from the value of a cell. -/
noncomputable def rank (S : Supply) (c : LazyRef) : Nat :=
  open Classical in (S.cells.filter (TransGen S.Uses c ·)).card

namespace Regular

variable (hS : S.Regular base) {c : LazyRef}

include hS

theorem mem_of_uses {d : LazyRef} (h : S.Uses c d) : d ∈ S.cells := by
  obtain ⟨hc, info, hd⟩ := h
  exact hS.closed hc _ hd d rfl

theorem rank_lt {d : LazyRef} (h : S.Uses c d) : S.rank d < S.rank c := by
  classical
  apply Finset.card_lt_card
  refine Finset.ssubset_iff_of_subset (fun e he => ?_) |>.2 ⟨d, ?_, ?_⟩
  · have he := Finset.mem_filter.1 he
    exact Finset.mem_filter.2 ⟨he.1, .head h he.2⟩
  · exact Finset.mem_filter.2 ⟨hS.mem_of_uses h, .single h⟩
  · exact fun hd => hS.acyclic d (Finset.mem_filter.1 hd).2

theorem rank_lt_card (hc : c ∈ S.cells) : S.rank c < S.cells.card := by
  classical
  apply Finset.card_lt_card
  refine Finset.ssubset_iff_of_subset (Finset.filter_subset _ _) |>.2 ⟨c, hc, fun h => ?_⟩
  exact hS.acyclic c (Finset.mem_filter.1 h).2

/-- What holds of a cell if it holds of the cells in its value holds of all cells. -/
theorem induct {P : LazyRef → Prop} (h : ∀ c ∈ S.cells, (∀ d, S.Uses c d → P d) → P c)
    (hc : c ∈ S.cells) : P c := by
  induction hd : S.rank c using Nat.strongRecOn generalizing c with
  | ind r ih => exact h c hc fun d hcd => ih _ (hd ▸ hS.rank_lt hcd) (hS.mem_of_uses hcd) rfl

theorem view?_eq (hc : c ∈ S.cells) : (S.value c).view? (S.storage c) = some (S.view c) := by
  obtain ⟨s, hs⟩ := Option.ne_none_iff_exists'.1 (hS.seqable hc)
  rw [view, hs, Option.getD_some]

theorem view_cells (hc : c ∈ S.cells) : (Value.seq (S.view c)).CellsIn (S.Uses c) := by
  refine CellsIn.view? (fun x hx d hd => ?_) (hS.view?_eq hc)
  cases x with
  | seq s =>
    cases s with
    | «lazy» e info =>
      cases hd
      exact ⟨hc, info, hx⟩
    | _ => cases hd
  | _ => cases hd

/-- Once there have been more rounds than cells are reached, another one changes nothing. -/
theorem shownAt_eq (hc : c ∈ S.cells) {k l : Nat} (hk : S.rank c < k) (hl : S.rank c < l) :
    S.shownAt k c = S.shownAt l c := by
  refine hS.induct (P := fun c => ∀ k l, S.rank c < k → S.rank c < l →
    S.shownAt k c = S.shownAt l c) (fun c hc ih k l hk hl => ?_) hc k l hk hl
  obtain ⟨k, rfl⟩ : ∃ m, k = m + 1 := ⟨k - 1, by omega⟩
  obtain ⟨l, rfl⟩ : ∃ m, l = m + 1 := ⟨l - 1, by omega⟩
  apply Value.seq.inj
  apply Value.expand_congr (hS.view_cells hc)
  intro d _ hd
  have := hS.rank_lt hd
  exact ih d hd k l (by omega) (by omega)

/-- What stands in for a cell are the elements of its value, with what stands in for the cells there
in their place. -/
theorem shown_eq (hc : c ∈ S.cells) (info : Info) :
    S.shown c info = (S.view c).expand S.shown := by
  have hrank := hS.rank_lt_card hc
  show S.shownAt S.cells.card c = S.shownAt (S.cells.card + 1) c
  exact hS.shownAt_eq hc hrank (by omega)

theorem shown_lazyFree (hc : c ∈ S.cells) (info : Info) :
    (Value.seq (S.shown c info)).LazyFree := by
  refine hS.induct (P := fun c => ∀ info, (Value.seq (S.shown c info)).LazyFree)
    (fun c hc ih info => ?_) hc info
  rw [hS.shown_eq hc]
  exact Value.lazyFree_expand (hS.view_cells hc) fun d i hd => ih d hd i

end Regular

/-! ## Realizing cells -/

namespace Stage

variable {w : World} (hw : S.Stage base w)

include hw

/-- The world may change in what it counts as long as the cells stay as they are. -/
theorem count (productions : List LazyRef) (storages : Nat) :
    S.Stage base { w with productions, storages } := by
  obtain ⟨lazies, _, _, rfl⟩ := hw.rest
  exact ⟨⟨lazies, productions, storages, rfl⟩, hw.other, hw.cell⟩

theorem fill {c : LazyRef} (hc : c ∈ S.cells) {s : Seq} {k : Storage}
    (hs : (S.value c).view? k = some s) :
    S.Stage base { w with lazies := w.lazies.set c (.realized s) } where
  rest := by
    obtain ⟨lazies, productions, storages, rfl⟩ := hw.rest
    exact ⟨_, productions, storages, rfl⟩
  other {d} hd := by
    have hne : c ≠ d := fun h => hd (h ▸ hc)
    rw [Heap.get?_set, if_neg (by simp [hne]), hw.other hd]
  cell {d} hd := by
    rw [Heap.get?_set]
    by_cases h : c = d ∧ c < w.lazies.size
    · rw [if_pos h]
      obtain ⟨rfl, -⟩ := h
      exact .inr ⟨s, k, rfl, hs⟩
    · rw [if_neg h]
      exact hw.cell hd

end Stage

theorem stage_elastic (S : Supply) (base : World) : Elastic (S.Stage base) :=
  fun w hw => hw.count w.productions (w.storages + 1)

namespace Regular

variable (hS : S.Regular base) {c : LazyRef}

include hS

theorem keep_returns (hc : c ∈ S.cells) : (LazyCell.keep c (S.value c)).ReturnsIn (S.Stage base)
    fun s => ∃ k, (S.value c).view? k = some s := by
  refine (Value.seq?_returns_view (S.stage_elastic base) _).bind fun o ⟨k, ho⟩ => ?_
  obtain ⟨s, hs⟩ : ∃ s, (S.value c).view? k = some s := by
    rcases Value.view?_cases (hS.view?_eq hc) k with h | ⟨xs, -, h⟩
    · exact ⟨_, h⟩
    · exact ⟨_, h⟩
  rw [ho, hs]
  have hrealized : (LazyCell.realized? c).ReturnsIn (S.Stage base)
      fun o => ∀ s ∈ o, ∃ k, (S.value c).view? k = some s := by
    refine .gets fun w hw => ?_
    rcases hw.cell hc with h | ⟨s, k, h, hs⟩
    · simp [h]
    · simpa [h] using ⟨k, hs⟩
  refine hrealized.bind fun o ho => ?_
  cases o with
  | some existing => exact .pure (ho existing rfl)
  | none =>
    have hfill : (LazyCell.fill c s).ReturnsIn (S.Stage base) fun _ => True :=
      .change fun w hw => ⟨hw.fill hc hs, trivial⟩
    exact hfill.bind fun _ _ => .pure ⟨k, hs⟩

/-- With enough fuel realizing a cell gives the elements of its value. -/
theorem force_returns : ∃ N, ∀ n ≥ N, ∀ c ∈ S.cells,
    (Machine.force n c).ReturnsIn (S.Stage base) fun s => ∃ k, (S.value c).view? k = some s := by
  choose! fuel hfuel using fun c (hc : c ∈ S.cells) => hS.pure hc
  refine ⟨S.cells.sup fuel + 1, fun n hn c hc => ?_⟩
  obtain ⟨n, rfl⟩ : ∃ m, n = m + 1 := ⟨n - 1, by omega⟩
  have hle : fuel c ≤ n := by
    have := Finset.le_sup (f := fuel) hc
    omega
  have hcall : (Machine.call n (S.callee c) (S.args c)).ReturnsIn (S.Stage base)
      (· = S.value c) := by
    intro w hw
    obtain ⟨v, w', hrun, hout⟩ := hfuel c hc w hw
    exact ⟨v, w', ((Machine.refines Steps.any hle).2.1 _ _ _ _ _ hrun).1, hout⟩
  intro w hw
  rw [Machine.force]
  rcases hw.cell hc with hcell | ⟨s, k, hcell, hs⟩
  · rw [LazyCell.realize_pending hcell]
    exact (hcall.bind fun v hv => hv ▸ hS.keep_returns hc) _ (hw.count _ w.storages)
  · exact ⟨s, w, LazyCell.realize_realized hcell, hw, k, hs⟩

end Regular

/-! ## What the cells show -/

/-- All cells in the value are of the supply, its storage is that of the store, and once the cells
are replaced there is no double that is not a number. -/
structure Serves (S : Supply) (σ : Store) (v : Value) : Prop where
  cells : v.CellsIn (· ∈ S.cells)
  stored : v.Everywhere σ.Holds
  nanFree : (v.expand S.shown).NaNFree

/-- The cells that serve. -/
def Known (S : Supply) (σ : Store) (c : LazyRef) : Prop := S.Serves σ (.seq (.lazy c .plain))

variable {σ : Store}

namespace Serves

theorem of_mem {v x : Value} (h : S.Serves σ v) (hx : x ∈ v.parts) : S.Serves σ x where
  cells := h.cells.of_mem hx
  stored := h.stored.of_mem hx
  nanFree := by
    have hlazy : v.isLazy = false := by
      cases v with
      | seq s => cases s <;> first | rfl | cases hx
      | _ => rfl
    apply h.nanFree.of_mem
    rw [Value.parts_expand hlazy]
    exact List.mem_map_of_mem hx

theorem pair {key value : Value} (k : Storage) (hkey : S.Serves σ key) (hvalue : S.Serves σ value) :
    S.Serves σ (.vector ⟨⟨k, [key, value]⟩, .plain⟩) where
  cells := everywhere_iff.2 ⟨by simp [Value.cell?],
    by simpa [Value.parts, Vec.items] using ⟨hkey.cells, hvalue.cells⟩⟩
  stored := everywhere_iff.2 ⟨trivial,
    by simpa [Value.parts, Vec.items] using ⟨hkey.stored, hvalue.stored⟩⟩
  nanFree := by
    refine everywhere_iff.2 ⟨rfl, ?_⟩
    rw [Value.parts_expand rfl]
    simpa [Value.parts, Vec.items] using ⟨hkey.nanFree, hvalue.nanFree⟩

theorem known {c : LazyRef} {info : Info} (h : S.Serves σ (.seq (.lazy c info))) : S.Known σ c where
  cells := everywhere_iff.2 ⟨h.cells.here, by simp [Value.parts]⟩
  stored := everywhere_iff.2 ⟨trivial, by simp [Value.parts]⟩
  nanFree := h.nanFree

end Serves

theorem Serves.over {s : Seq} (h : S.Serves σ (.seq s)) : s.Over (S.Known σ) (S.Serves σ) :=
  Seq.over_of_parts (fun _ hv _ => hv.of_mem) (fun _ _ => Serves.known) h

namespace Regular

variable (hS : S.Regular base) (hσ : ∀ c ∈ S.cells, (Value.seq (S.view c)).Everywhere σ.Holds)
  {c : LazyRef}

include hS hσ

theorem serves_view (hc : S.Known σ c) : S.Serves σ (.seq (S.view c)) := by
  have hmem : c ∈ S.cells := hc.cells.here c rfl
  refine ⟨fun x hx d hd => hS.mem_of_uses (hS.view_cells hmem x hx d hd), hσ c hmem, ?_⟩
  have hnan := hc.nanFree
  rwa [Value.expand, Seq.expand, hS.shown_eq hmem] at hnan

/-- Whatever storage its characters are in, a view of the value of a cell shows what stands in for
the cell, and if it is a cell itself, it is one in the value. -/
theorem over_view (hc : S.Known σ c) {k : Storage} {s : Seq} (hs : (S.value c).view? k = some s) :
    s.Over (S.Known σ) (S.Serves σ) ∧
      (s.expand S.shown).items = ((S.view c).expand S.shown).items ∧
      ∀ d info, s = .lazy d info → S.Uses c d := by
  have hmem : c ∈ S.cells := hc.cells.here c rfl
  have hover := (hS.serves_view hσ hc).over
  have hview := hS.view?_eq hmem
  rcases Value.view?_cases hs (S.storage c) with h | ⟨xs, rfl, h⟩
  · have heq : s = S.view c := Option.some.inj (h.symm.trans hview)
    subst heq
    exact ⟨hover, rfl, fun d info hd => (hS.view_cells hmem).here d (by rw [hd]; rfl)⟩
  · have heq : S.view c = _ := Option.some.inj (hview.symm.trans h)
    rw [heq] at hover ⊢
    exact ⟨hover, rfl, fun d info hd => nomatch hd⟩

/-- The front of a cell, by way of the cells that are met until there is an element. -/
theorem front_returns {force : Force} (hforce : ∀ c ∈ S.cells,
      (force c).ReturnsIn (S.Stage base) fun s => ∃ k, (S.value c).view? k = some s)
    {n : Nat} (info : Info) (hc : S.Known σ c) (hn : S.rank c + 2 ≤ n) :
    ((Seq.lazy c info).front force n).ReturnsIn (S.Stage base)
      (Front.Starts (S.Known σ) (S.Serves σ) S.shown (S.shown c info).items) := by
  have hmem : c ∈ S.cells := hc.cells.here c rfl
  refine hS.induct (P := fun c => ∀ n info, S.Known σ c → S.rank c + 2 ≤ n →
    ((Seq.lazy c info).front force n).ReturnsIn (S.Stage base)
      (Front.Starts (S.Known σ) (S.Serves σ) S.shown (S.shown c info).items))
    (fun c hmem ih n info hc hn => ?_) hmem n info hc hn
  obtain ⟨n, rfl⟩ : ∃ m, n = m + 2 := ⟨n - 2, by omega⟩
  refine (hforce c hmem).bind fun s ⟨k, hs⟩ => ?_
  obtain ⟨hover, hitems, hcell⟩ := hS.over_view hσ hc hs
  rw [hS.shown_eq hmem, ← hitems]
  apply Seq.front_returns_of_cell hover
  rintro d info rfl
  have huses := hcell d info rfl
  have hrank := hS.rank_lt huses
  exact ih d huses _ info hover (by omega)

/-- With enough fuel the cells of a supply show what stands in for them at every stage. -/
theorem shows : ∃ N, ∀ n ≥ N, Shows (S.Stage base) (Machine.force n) (S.Known σ) (S.Serves σ)
    S.shown (S.cells.card + 1) := by
  obtain ⟨N, hN⟩ := hS.force_returns
  refine ⟨N, fun n hn => ?_⟩
  refine { elastic := S.stage_elastic base, nil := ?nil, pair := fun k => Serves.pair k, front := ?front
           parts := fun h _ => h.of_mem, cell := Serves.known }
  case nil => exact ⟨everywhere_iff.2 ⟨by simp [Value.cell?], by simp [Value.parts]⟩,
    everywhere_iff.2 ⟨trivial, by simp [Value.parts]⟩,
    everywhere_iff.2 ⟨rfl, by simp [Value.parts, Value.expand]⟩⟩
  case front =>
    intro c m info hc hm
    have hrank := hS.rank_lt_card (hc.cells.here c rfl)
    exact hS.front_returns hσ (hN n hn) info hc (by omega)

/-- A sequence can be resolved into one that is not a cell itself. -/
theorem exists_resolved {s : Seq} (hs : S.Serves σ (.seq s)) :
    ∃ t, (Value.seq t).isLazy = false ∧ S.Serves σ (.seq t) ∧
      t.expand S.shown = s.expand S.shown := by
  cases s with
  | «lazy» c info =>
    have hmem : c ∈ S.cells := hs.cells.here c rfl
    refine hS.induct (P := fun c => S.Known σ c → ∃ t, (Value.seq t).isLazy = false ∧
      S.Serves σ (.seq t) ∧ t.expand S.shown = S.shown c info) (fun c hmem ih hc => ?_) hmem
      hs.known
    have hview := hS.serves_view hσ hc
    have huses := (hS.view_cells hmem).here
    rw [hS.shown_eq hmem]
    rcases hlazy : S.view c with _ | _ | _ | _ | ⟨d, i⟩ <;> rw [hlazy] at hview huses
    case «lazy» => exact ih d (huses d rfl) hview.known
    all_goals exact ⟨_, rfl, hview, rfl⟩
  | _ => exact ⟨_, rfl, hs, rfl⟩

/-- Sequences that are the same once their cells are replaced have equal elements. -/
theorem faithful : Faithful (S.Serves σ) S.shown where
  cell c _ _ := (S.shownAt S.cells.card c).same_self
  same {s t} hs ht hsame := by
    right
    obtain ⟨s', hlazy, hs', hexpand⟩ := hS.exists_resolved hσ hs
    obtain ⟨t', hlazy', ht', hexpand'⟩ := hS.exists_resolved hσ ht
    rw [← hexpand, ← hexpand'] at hsame ⊢
    have heq := Store.withInfo_eq_of_same hs'.stored.here ht'.stored.here
      (Seq.same_of_expand hlazy hlazy' hsame) .plain
    rw [← Seq.items_expand_withInfo hlazy' .plain, ← heq, Seq.items_expand_withInfo hlazy]
    have hitems : ∀ x ∈ (s'.expand S.shown).items, x.NaNFree :=
      Value.Everywhere.items (fun _ => rfl) hs'.nanFree
    apply isEqv_iff_forall₂.2
    exact List.forall₂_same.2 fun x hx => Value.agree_self (hitems x hx)

end Regular

end Supply

end LispKernel
