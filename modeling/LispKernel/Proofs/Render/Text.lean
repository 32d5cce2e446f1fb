import LispKernel.Proofs.Equality.Comparison

/-!
# The text of a value

Rendering as a function of the value and the print length alone. One step writes a value, given the
texts of its parts; the text of a value is the step repeated as often as the value is deep. A value
whose lazy cells show what stands in for them is rendered as the value without cells.
-/
namespace LispKernel

open Run (ReturnsIn Refines)
open Value (Copy)

variable {I : World → Prop} {force : Force} {known : LazyRef → Prop} {C : Value → Prop}
  {shown : Showing} {K n : Nat}

/-! ## Excerpts -/

namespace Excerpt

/-- The texts that the limit allows. -/
def first : Option Nat → List String → Excerpt
  | none, pieces => ⟨pieces, false⟩
  | some k, pieces => ⟨pieces.take k, decide (k < pieces.length)⟩

theorem first_nil (limit : Option Nat) : first limit [] = ⟨[], false⟩ := by
  cases limit <;> simp [first]

theorem first_zero_cons (piece : String) (pieces : List String) :
    first (some 0) (piece :: pieces) = ⟨[], true⟩ := by
  simp [first]

theorem first_cons {limit : Option Nat} (h : limit ≠ some 0) (piece : String)
    (pieces : List String) :
    first limit (piece :: pieces) = (first (limit.map (· - 1)) pieces).cons piece := by
  rcases limit with _ | _ | k
  · rfl
  · exact absurd rfl h
  · simp [first, cons]

theorem ofList_returns {α : Type} {write : α → Run String} {text : α → String} {l : List α}
    (h : ∀ x ∈ l, (write x).ReturnsIn I (· = text x)) (limit : Option Nat) :
    (ofList write limit l).ReturnsIn I (· = first limit (l.map text)) := by
  induction l generalizing limit with
  | nil =>
    rw [ofList, List.map_nil, first_nil]
    exact .pure rfl
  | cons x l ih =>
    by_cases hlimit : limit = some 0
    · rw [hlimit, List.map_cons, first_zero_cons]
      exact .pure rfl
    · have hrest := ih (fun y hy => h y (by simp [hy])) (limit.map (· - 1))
      rw [ofList.eq_3 write limit x l hlimit, List.map_cons, first_cons hlimit]
      refine (h x (by simp)).bind fun piece hpiece => hrest.bind fun e he => .pure ?_
      rw [hpiece, he]

theorem ofSeq_returns (h : Shows I force known C shown K) {write : Value → Run String}
    {text : Value → String} {s : Seq} (hs : s.Over known C)
    (hn : (s.expand shown).items.length + K + 1 < n)
    (hwrite : ∀ y ∈ (s.expand shown).items, ∀ x, x.StandsFor C shown y →
      (write x).ReturnsIn I (· = text y)) (limit : Option Nat) :
    (ofSeq force write n limit s).ReturnsIn I
      (· = first limit ((s.expand shown).items.map text)) := by
  induction n generalizing s limit with
  | zero => omega
  | succ n ih =>
    refine (Seq.next_returns h.toWalkable hs (by omega)).attempt.bind fun _ ⟨next, hok, hnext⟩ => ?_
    subst hok
    rcases next with _ | ⟨x, rest⟩
    · have hnil : (s.expand shown).items = [] := hnext
      rw [hnil, List.map_nil, first_nil]
      exact .pure rfl
    · obtain ⟨hrest, y, hy, hx⟩ := hnext
      rw [hy, List.map_cons]
      by_cases hlimit : limit = some 0
      · rw [hlimit, first_zero_cons]
        exact .pure rfl
      · rw [hy, List.length_cons] at hn
        have hrun := ih hrest (by omega)
          (fun z hz => hwrite z (by simp [hy, hz])) (limit.map (· - 1))
        have hpiece := hwrite y (by simp [hy]) x hx
        rw [first_cons hlimit]
        rcases limit with _ | _ | k
        · refine hpiece.bind fun piece hpiece => hrun.bind fun e he => .pure ?_
          rw [hpiece, he]
        · exact absurd rfl hlimit
        · refine hpiece.bind fun piece hpiece => hrun.bind fun e he => .pure ?_
          rw [hpiece, he]

end Excerpt

/-! ## Texts -/

namespace Value

variable (escape : Bool) (limit : Option Nat)

/-- The text of a value, given those of its parts. -/
def textBy (text : Value → String) : Value → String
  | atom a => a.render escape
  | vector v => "[" ++ (Excerpt.first limit (v.items.map text)).join " " ++ "]"
  | map m => "\x7b" ++ (Excerpt.first limit
      (m.entries.map fun e => text e.1 ++ " " ++ text e.2)).join ", " ++ "\x7d"
  | set s => "#\x7b" ++ (Excerpt.first limit (s.items.map text)).join " " ++ "\x7d"
  | seq s => "(" ++ (Excerpt.first limit (s.items.map text)).join " " ++ ")"

theorem textBy_congr {text text' : Value → String} {v : Value}
    (h : v.content.Forall fun x => text x = text' x) :
    textBy escape limit text v = textBy escape limit text' v := by
  cases v with
  | atom a => rfl
  | vector v => rw [textBy, textBy, List.map_congr_left h]
  | map m =>
    rw [textBy, textBy, List.map_congr_left fun e he => by rw [(h e he).1, (h e he).2]]
  | set s => rw [textBy, textBy, List.map_congr_left h]
  | seq s => rw [textBy, textBy, List.map_congr_left h]

def textAt : Nat → Value → String
  | 0, _ => ""
  | n + 1, v => v.textBy escape limit (textAt n)

/-- The text of a value without lazy cells. -/
def text (v : Value) : String := textAt escape limit v.weight v

theorem textAt_eq {n : Nat} {v : Value} (h : v.weight ≤ n) :
    textAt escape limit n v = text escape limit v := by
  unfold text
  induction hd : v.weight using Nat.strongRecOn generalizing n v with
  | ind d ih =>
    have := three_le_weight v
    obtain ⟨m, rfl⟩ : ∃ m, n = m + 1 := ⟨n - 1, by omega⟩
    obtain ⟨k, rfl⟩ : ∃ k, d = k + 1 := ⟨d - 1, by omega⟩
    refine textBy_congr escape limit (v.weight_content.imp fun x hx => ?_)
    rw [ih x.weight (by omega) (by omega) rfl, ← ih x.weight (by omega) (n := k) (by omega) rfl]

theorem text_eq (v : Value) : text escape limit v = v.textBy escape limit (text escape limit) := by
  rw [← textAt_eq escape limit (Nat.le_succ v.weight), textAt]
  apply textBy_congr
  exact v.weight_content.imp fun x hx => textAt_eq escape limit (by omega)

theorem Copy.text_eq {x y : Value} (h : Copy x y) : text escape limit x = text escape limit y := by
  rw [Value.text_eq, Value.text_eq escape limit y]
  cases h <;> rfl

theorem render_returns_expand (h : Shows I force known C shown K)
    (hlimit : ∀ w, I w → w.printLength = limit) {v : Value} (hv : C v)
    (hn : (v.expand shown).weight + K ≤ n) :
    (v.render force escape n).ReturnsIn I (· = text escape limit (v.expand shown)) := by
  induction n generalizing v with
  | zero =>
    have := three_le_weight (v.expand shown)
    omega
  | succ n ih =>
    rw [text_eq]
    have hweight := (v.expand shown).weight_content
    -- The parts of a value other than a sequence are rendered with less fuel.
    have hparts (hseq : ∀ s, v ≠ seq s) : v.content.Forall fun x =>
        (x.render force escape n).ReturnsIn I (· = text escape limit (x.expand shown)) := by
      rw [content_expand hseq, Content.forall_map] at hweight
      exact ((h.content hv hseq).and hweight).imp fun x hx => ih hx.1 (by omega)
    refine (ReturnsIn.gets (P := (· = limit)) hlimit).bind fun l hl => ?_
    subst l
    cases v with
    | atom a => exact .pure rfl
    | vector v =>
      refine (Excerpt.ofList_returns (hparts (by simp)) _).bind fun e he => .pure ?_
      rw [he, expand, textBy, Vec.items_expand, List.map_map]
      rfl
    | map m =>
      have hparts := hparts (by simp)
      have hwrite : ∀ e ∈ m.entries, ReturnsIn I (do
          return (← render force escape n e.1) ++ " " ++ (← render force escape n e.2))
          (· = text escape limit (e.1.expand shown) ++ " " ++
            text escape limit (e.2.expand shown)) := by
        intro e he
        obtain ⟨hkey, hvalue⟩ := hparts e he
        refine hkey.bind fun key hkey => hvalue.bind fun value hvalue => .pure ?_
        rw [hkey, hvalue]
      refine (Excerpt.ofList_returns hwrite _).bind fun e he => .pure ?_
      simp only [he, expand, textBy, Dict.entries_expand, List.map_map, Function.comp_def,
        entryExpand_fst, entryExpand_snd]
    | set s =>
      refine (Excerpt.ofList_returns (hparts (by simp)) _).bind fun e he => .pure ?_
      rw [he, expand, textBy, ElemSet.items_expand, List.map_map]
      rfl
    | seq s =>
      have hlen : _ + 3 ≤ ((seq s).expand shown).weight := (s.expand shown).length_items_add
      have hwrite : ∀ y ∈ (s.expand shown).items, ∀ x : Value, x.StandsFor C shown y →
          (x.render force escape n).ReturnsIn I (· = text escape limit y) := by
        intro y hy x hx
        have hxweight : (x.expand shown).weight < ((seq s).expand shown).weight :=
          hx.2.weight_eq ▸ hweight y hy
        rw [← hx.2.text_eq]
        exact ih hx.1 (by omega)
      refine (Excerpt.ofSeq_returns h (h.over hv) (by omega) hwrite _).bind fun e he => .pure ?_
      rw [he]
      rfl

theorem render_mono (force : Force) (v : Value) {n m : Nat} (h : n ≤ m) :
    Refines (fun _ _ => True) (v.render force escape n) (v.render force escape m) :=
  render_congr Refines.any (fun _ _ _ _ hcell => ⟨hcell, trivial⟩) h escape v

theorem render_returns (force : Force) (hI : Elastic I) (hlimit : ∀ w, I w → w.printLength = limit)
    {v : Value} (hv : v.LazyFree) (hn : v.weight ≤ n) :
    (v.render force escape n).ReturnsIn I (· = text escape limit v) := by
  have hfuel : (v.expand Seq.lazy).weight + 0 ≤ n := by rwa [v.expand_lazy]
  have hrun := render_returns_expand escape limit (.nothing force hI) hlimit hv hfuel
  rwa [v.expand_lazy] at hrun

/-- Rendering a value without lazy cells does not fail, whatever the fuel. -/
theorem render_endsIn (force : Force) (hI : Elastic I) {E : Error → Prop} {v : Value}
    (hv : v.LazyFree) (n : Nat) : (v.render force escape n).EndsIn I (fun _ => True) E := by
  intro w r w' hw hrun
  -- the print length stays what it is
  let J (u : World) : Prop := I u ∧ u.printLength = w.printLength
  have hJ : Elastic J := fun u hu => ⟨hI u hu.1, hu.2⟩
  have hends : (v.render force escape n).EndsIn J (fun _ => True) E := by
    apply Run.EndsIn.of_returnsIn (N := v.weight) (render_mono escape force v)
    intro n hn
    exact (render_returns escape w.printLength force hJ (fun u hu => hu.2) hv hn).mono
      fun _ _ => trivial
  exact (hends w r w' ⟨hw, rfl⟩ hrun).imp_left And.left

end Value

end LispKernel
