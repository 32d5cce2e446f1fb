import LispKernel.Proofs.Dict.Outcome
import LispKernel.Proofs.Refinement.Walk
import LispKernel.Proofs.Seq.Walk

/-!
# What comparing values comes to

Comparing two values whose lazy cells show what stands in for them ends, with fuel for the weight of
the values once their cells are replaced. The answer is whether the values without cells agree. If
no lazy cell occurs, the values are compared as they are.
-/
namespace LispKernel

open Run (ReturnsIn Settles Refines)
open Value (Copy agree)

variable {I : World → Prop}

theorem Comparison.all_returns {eq : Comparison} {C : Value → Prop} {p : Test}
    (heq : eq.Decides I C p) {xs ys : List Value} (hlen : xs.length = ys.length)
    (hx : ∀ x ∈ xs, C x) (hy : ∀ y ∈ ys, C y) :
    (eq.all xs ys).ReturnsIn I (· = xs.isEqv ys p) := by
  induction xs generalizing ys with
  | nil =>
    cases ys with
    | nil => exact .pure rfl
    | cons y ys => simp at hlen
  | cons x xs ih =>
    cases ys with
    | nil => simp at hlen
    | cons y ys =>
      have ih := ih (by simpa using hlen) (fun u hu => hx u (by simp [hu]))
        fun u hu => hy u (by simp [hu])
      refine (heq x y (hx x (by simp)) (hy y (by simp))).bind fun same hsame => ?_
      rw [List.isEqv, ← hsame]
      cases same with
      | false => exact .pure rfl
      | true => exact ih.mono fun r hr => by simp [hr]

theorem isEqv_of_length_ne {p : Test} {xs ys : List Value} (h : xs.length ≠ ys.length) :
    xs.isEqv ys p = false := by
  rw [Bool.eq_false_iff]
  exact fun heq => h (isEqv_iff_forall₂.1 heq).length_eq

theorem Vec.equal_returns {eq : Comparison} {C : Value → Prop} {p : Test} (heq : eq.Decides I C p)
    {v u : Vec} (hv : ∀ x ∈ v.items, C x) (hu : ∀ y ∈ u.items, C y) :
    (v.equal eq u).ReturnsIn I (· = v.items.isEqv u.items p) := by
  unfold equal
  split
  · next hcount => exact .pure (isEqv_of_length_ne hcount).symm
  · next hcount => exact Comparison.all_returns heq (Classical.not_not.1 hcount) hv hu

theorem Vec.items_expand_seq {shown : Showing} (v : Vec) :
    (v.seq.expand shown).items = (v.expand shown).items := by
  rw [v.items_expand]
  exact Seq.items_expand_ofSlice ..

/-- A class of values in which it makes no difference whether a sequence is known to be the same as
another before or only after its cells are replaced. -/
structure Faithful (C : Value → Prop) (shown : Showing) : Prop where
  cell (c : LazyRef) (i j : Info) : (shown c i).same (shown c j) = true
  same {s t : Seq} : C (.seq s) → C (.seq t) → (s.expand shown).same (t.expand shown) = true →
    s.same t = true ∨ (s.expand shown).items.isEqv (t.expand shown).items agree = true

/-- Where cells stand for themselves, nothing changes. -/
theorem Faithful.unchanged (C : Value → Prop) : Faithful C Seq.lazy where
  cell c _ _ := beq_self_eq_true c
  same {s t} _ _ h := .inl (by rwa [s.expand_lazy, t.expand_lazy] at h)

namespace Value

variable {force : Force} {known : LazyRef → Prop} {C : Value → Prop} {shown : Showing} {K n : Nat}

/-- The value is of the class, and the fuel is enough for it once its cells are replaced. -/
def FitsIn (C : Value → Prop) (shown : Showing) (K n : Nat) (v : Value) : Prop :=
  C v ∧ (v.expand shown).weight + K ≤ n

/-- What is left of the fuel is enough for the parts of a value other than a sequence. -/
theorem FitsIn.content (h : Shows I force known C shown K) {v : Value}
    (hv : v.FitsIn C shown K (n + 1)) (hseq : ∀ s, v ≠ seq s) :
    v.content.Forall (FitsIn C shown K n) := by
  have hweight := (v.expand shown).weight_content
  rw [content_expand hseq, Content.forall_map] at hweight
  exact ((h.content hv.1 hseq).and hweight).imp fun x hx => ⟨hx.1, by have := hv.2; omega⟩

theorem StandsFor.fitsIn {x y : Value} (hx : x.StandsFor C shown y) (hy : y.weight + K ≤ n) :
    x.FitsIn C shown K n :=
  ⟨hx.1, hx.2.weight_eq ▸ hy⟩

/-- The comparison of two values whose cells show what stands in for them. -/
theorem equals_decides_expand (h : Shows I force known C shown K) (hC : Faithful C shown)
    (n : Nat) : Comparison.Decides (equals force n) I (FitsIn C shown K n)
      fun a b => agree (a.expand shown) (b.expand shown) := by
  induction n with
  | zero =>
    intro a b ha hb
    have := three_le_weight (a.expand shown)
    have := ha.2
    omega
  | succ n ih =>
    intro a b ha hb
    show ReturnsIn I _ (· = agree (a.expand shown) (b.expand shown))
    rw [agree_eq]
    have hfuel := ha.2
    have hfuel' := hb.2
    have hweight := (a.expand shown).weight_content
    have hweight' := (b.expand shown).weight_content
    have hwalk {s t : Seq} (hs : s.Over known C) (ht : t.Over known C)
        (hlen : (s.expand shown).items.length + K + 1 < n)
        (hx : ∀ x ∈ (s.expand shown).items, x.weight < (a.expand shown).weight)
        (hy : ∀ y ∈ (t.expand shown).items, y.weight < (b.expand shown).weight) :
        (s.equal force (equals force n) n t).ReturnsIn I
          (· = (s.expand shown).items.isEqv (t.expand shown).items agree) := by
      refine Seq.equal_returns h.toWalkable hs ht hlen fun x' hx' y' hy' x y hxx' hyy' => ?_
      have hxlt := hx x' hx'
      have hylt := hy y' hy'
      rw [← hxx'.2.agree_eq hyy'.2]
      exact ih x y (hxx'.fitsIn (by omega)) (hyy'.fitsIn (by omega))
    -- Other than for sequences, one step of the comparison is the step on the replaced values.
    have hstep (ha' : ∀ s, a ≠ seq s) (hb' : ∀ s, b ≠ seq s)
        (hident : (a.expand shown).identical (b.expand shown) = a.identical b) :
        agreeBy agree (a.expand shown) (b.expand shown) =
          agreeBy (fun a b => agree (a.expand shown) (b.expand shown)) a b := by
      rw [agreeBy, agreeBy, hident, content_expand ha', content_expand hb', Content.agreeBy_map]
    cases a <;> cases b
    case atom.atom a b => exact .pure rfl
    case vector.vector v u =>
      rw [hstep (by simp) (by simp) rfl]
      exact Vec.equal_returns ih (ha.content h (by simp)) (hb.content h (by simp))
    case map.map m o =>
      rw [hstep (by simp) (by simp) (by simp [expand, identical, Dict.same])]
      exact Dict.equal_returns ih (ha.content h (by simp)) (hb.content h (by simp))
    case set.set s o =>
      rw [hstep (by simp) (by simp) rfl]
      exact ElemSet.equal_returns ih (ha.content h (by simp)) (hb.content h (by simp))
    case vector.seq v t =>
      have hlen : _ + 3 ≤ ((vector v).expand shown).weight := (v.expand shown).length_items_add
      have hv : v.seq.Over known C := Seq.over_ofSlice (h.parts ha.1)
      have hrun := hwalk hv (h.over hb.1)
        (by rw [v.items_expand_seq]; omega) (by rw [v.items_expand_seq]; exact hweight) hweight'
      rwa [v.items_expand_seq] at hrun
    case seq.vector s u =>
      have hlen : _ + 3 ≤ ((seq s).expand shown).weight := (s.expand shown).length_items_add
      have hu : u.seq.Over known C := Seq.over_ofSlice (h.parts hb.1)
      have hrun := hwalk (h.over ha.1) hu (by omega) hweight
        (by rw [u.items_expand_seq]; exact hweight')
      rwa [u.items_expand_seq] at hrun
    case seq.seq s t =>
      have hlen : _ + 3 ≤ ((seq s).expand shown).weight := (s.expand shown).length_items_add
      rw [equals]
      by_cases hsame : s.same t = true
      · rw [if_pos hsame]
        exact .pure (by simp [expand, agreeBy, identical, Seq.same_expand hC.cell hsame])
      · rw [if_neg hsame]
        refine (hwalk (h.over ha.1) (h.over hb.1) (by omega) hweight hweight').mono fun r hr => ?_
        have hshown : (s.expand shown).same (t.expand shown) = true → r = true := by
          rw [hr]
          exact fun hshown => (hC.same ha.1 hb.1 hshown).resolve_left hsame
        simp only [expand, agreeBy, identical, content, Content.agreeBy, ← hr]
        cases hs : (s.expand shown).same (t.expand shown) with
        | true => simp [hshown hs]
        | false => rfl
    all_goals exact .pure rfl

theorem equals_mono (force : Force) (a b : Value) {n m : Nat} (h : n ≤ m) :
    Refines (fun _ _ => True) (a.equals force n b) (a.equals force m b) :=
  equals_congr Refines.any (fun _ _ _ _ hcell => ⟨hcell, trivial⟩) h a b

/-! ## Values without lazy cells -/

/-- No lazy cell occurs in the value, and the fuel is enough for it. -/
def Fits (n : Nat) (v : Value) : Prop := v.LazyFree ∧ v.weight ≤ n

variable (force)

theorem equals_decides (n : Nat) (hI : Elastic I) :
    Comparison.Decides (equals force n) I (Fits n) agree := by
  intro a b ha hb
  have hrun := equals_decides_expand (.nothing force hI) (.unchanged _) n a b
    ⟨ha.1, by rw [a.expand_lazy]; exact ha.2⟩ ⟨hb.1, by rw [b.expand_lazy]; exact hb.2⟩
  simpa only [expand_lazy] using hrun

/-- What an operation that compares with enough fuel returns is what it settles on. -/
theorem settles_of_decides {α : Type} {x : Comparison → Run α} {P : α → Prop} {N : Nat}
    (hx : ∀ {eq eq' : Comparison}, (∀ a b, Refines (fun _ _ => True) (eq a b) (eq' a b)) →
      Refines (fun _ _ => True) (x eq) (x eq'))
    (h : ∀ n ≥ N, ∀ {I : World → Prop} {eq : Comparison}, Elastic I →
      eq.Decides I (Fits n) agree → (x eq).ReturnsIn I P) :
    Settles (fun n => x (equals force n)) P :=
  .of_returnsIn (fun hn => hx fun a b => equals_mono force a b hn) fun u n hn =>
    h n hn (.elastic u) (equals_decides force n (.elastic u))

theorem equals_settles {a b : Value} (ha : a.LazyFree) (hb : b.LazyFree) :
    Settles (fun n => a.equals force n b) (· = agree a b) :=
  settles_of_decides force (N := max a.weight b.weight) (fun heq => heq a b) fun n hn _ _ _ heq =>
    heq a b ⟨ha, by omega⟩ ⟨hb, by omega⟩

/-- Comparing values without lazy cells does not fail, whatever the fuel. -/
theorem equals_endsIn (hI : Elastic I) {E : Error → Prop} {a b : Value} (ha : a.LazyFree)
    (hb : b.LazyFree) (n : Nat) : (a.equals force n b).EndsIn I (fun _ => True) E := by
  apply Run.EndsIn.of_returnsIn (N := max a.weight b.weight) (equals_mono force a b)
  intro n hn
  exact (equals_decides force n hI a b ⟨ha, by omega⟩ ⟨hb, by omega⟩).mono fun _ _ => trivial

end Value

end LispKernel
