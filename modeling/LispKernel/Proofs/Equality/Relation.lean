import LispKernel.Proofs.Value.Built

/-!
# Agreement as a relation

On lawful values, which have no lazy cells, whose maps and sets the operations have built and whose
storage is that of one store, agreement is symmetric and transitive. A search of one map or set in
another pairs off all that is in them, since neither has equal keys or elements. Values identical by
storage have the same content, so that the shortcut for them does no harm even where a part is not
equal to itself.
-/
namespace LispKernel

open List (Forall₂)

/-! ## Atoms -/

namespace Double

theorem isZero_of_bits {d : Double} (h : d.bits = 0) : d.isZero = true := by
  cases d
  subst h
  rfl

/-- Two doubles are equal if they are numbers with the same word for their class. -/
theorem equals_iff {a b : Double} : a.equals b = true ↔
    a.isNaN = false ∧ b.isNaN = false ∧ a.canonicalBits = b.canonicalBits := by
  have hbits (h : a.bits = b.bits) : a.isZero = b.isZero := by
    simp [isZero, exponent, fraction, h]
  have hclass : (a.bits = b.bits ∨ a.isZero = true ∧ b.isZero = true) ↔
      a.canonicalBits = b.canonicalBits := by
    unfold canonicalBits
    by_cases ha : a.isZero = true <;> by_cases hb : b.isZero = true
    · simp [ha, hb]
    · have hne : b.bits ≠ 0 := fun h => hb (isZero_of_bits h)
      have hother : a.bits ≠ b.bits := fun h => hb (hbits h ▸ ha)
      simp [ha, hb, Ne.symm hne, hother]
    · have hne : a.bits ≠ 0 := fun h => ha (isZero_of_bits h)
      have hother : a.bits ≠ b.bits := fun h => ha (hbits h ▸ hb)
      simp [ha, hb, hne, hother]
    · simp [ha, hb]
  simp [equals, ← hclass, and_assoc]

end Double

namespace Atom

variable {a b c : Atom}

/-- Atoms that are equal are the same but for the class of a double and the names of a var or a
procedure. -/
theorem equals_cases (h : a.equals b = true) :
    a = b ∨ (∃ d e, a = .double d ∧ b = .double e ∧ d.equals e = true) ∨
      (∃ v u, a = .var v ∧ b = .var u ∧ v.cell = u.cell) ∨
      ∃ p q, a = .proc p ∧ b = .proc q ∧ p.code = q.code := by
  unfold Atom.equals at h
  split at h
  · exact .inr (.inl ⟨_, _, rfl, rfl, h⟩)
  · exact .inr (.inr (.inl ⟨_, _, rfl, rfl, beq_iff_eq.1 h⟩))
  · exact .inr (.inr (.inr ⟨_, _, rfl, rfl, beq_iff_eq.1 h⟩))
  · exact .inl (beq_iff_eq.1 h)

theorem equals_symm (h : a.equals b = true) : b.equals a = true := by
  rcases equals_cases h with rfl | ⟨d, e, rfl, rfl, hde⟩ | ⟨v, u, rfl, rfl, hvu⟩ |
    ⟨p, q, rfl, rfl, hpq⟩
  · exact h
  · obtain ⟨hd, he, hbits⟩ := Double.equals_iff.1 hde
    exact Double.equals_iff.2 ⟨he, hd, hbits.symm⟩
  · exact beq_iff_eq.2 hvu.symm
  · exact beq_iff_eq.2 hpq.symm

theorem equals_trans (hab : a.equals b = true) (hbc : b.equals c = true) : a.equals c = true := by
  rcases equals_cases hbc with rfl | ⟨e, f, rfl, rfl, hef⟩ | ⟨u, v, rfl, rfl, huv⟩ |
    ⟨p, q, rfl, rfl, hpq⟩
  · exact hab
  all_goals cases a <;> try cases hab
  · obtain ⟨hd, -, hde⟩ := Double.equals_iff.1 hab
    obtain ⟨-, hf, hef⟩ := Double.equals_iff.1 hef
    exact Double.equals_iff.2 ⟨hd, hf, hde.trans hef⟩
  · exact beq_iff_eq.2 ((beq_iff_eq.1 hab).trans huv)
  · exact beq_iff_eq.2 ((beq_iff_eq.1 hab).trans hpq)

end Atom

/-! ## Contents -/

namespace Content

/-- No two keys, and no two elements of a set, pass the test. -/
def Distinct (p : Test) : Content → Prop
  | entries l => Table.Distinct p l
  | elems xs => xs.Pairwise fun x y => p x y = false
  | _ => True

/-- The parts of two contents can be paired off, in order where the order counts. -/
inductive Related (p : Test) : Content → Content → Prop where
  | atom {a b : Atom} : a.equals b = true → Related p (.atom a) (.atom b)
  | items {xs ys : List Value} : Forall₂ (fun x y => p x y = true) xs ys →
      Related p (.items xs) (.items ys)
  | entries {l l' : List (Value × Value)} :
      Matching (fun e f => p e.1 f.1 = true ∧ p e.2 f.2 = true) l l' →
      Related p (.entries l) (.entries l')
  | elems {xs ys : List Value} : Matching (fun x y => p x y = true) xs ys →
      Related p (.elems xs) (.elems ys)

variable {C : Value → Prop} {p : Test} {c d e : Content}

section

variable (hp : PartialEquivalence C p)

include hp

theorem entries_iff {l l' : List (Value × Value)} (hl : ∀ e ∈ l, C e.1 ∧ C e.2)
    (hl' : ∀ e ∈ l', C e.1 ∧ C e.2) (hd : Table.Distinct p l) (hd' : Table.Distinct p l') :
    agreeBy p (.entries l) (.entries l') = true ↔
      Matching (fun e f => p e.1 f.1 = true ∧ p e.2 f.2 = true) l l' := by
  simp only [agreeBy, Bool.and_eq_true, beq_iff_eq, List.all_eq_true, Option.any_eq_true]
  constructor
  · rintro ⟨hlen, hsearch⟩
    refine Matching.of_search hlen (fun e he => ?_) ?_
    · obtain ⟨f, hf, hvalue⟩ := hsearch e he
      have hmem := List.mem_of_find?_eq_some hf
      have hkey : p f.1 e.1 = true :=
        List.find?_some (p := fun g : Value × Value => p g.1 e.1) hf
      exact ⟨f, hmem, hp.symm (hl' f hmem).1 (hl e he).1 hkey,
        hp.symm (hl' f hmem).2 (hl e he).2 hvalue⟩
    · -- Two entries with one partner would have equal keys.
      refine List.Pairwise.imp_of_mem ?_ hd
      intro e e' he he' hne f hf hef he'f
      have := hp.trans (hl e he).1 (hl' f hf).1 (hl e' he').1 hef.1
        (hp.symm (hl e' he').1 (hl' f hf).1 he'f.1)
      simp [hne] at this
  · intro h
    refine ⟨h.length_eq, fun e he => ?_⟩
    obtain ⟨f, hf, hkey, hvalue⟩ := h.exists_right he
    refine ⟨f, Table.find?_eq_some hp hd' (fun e he => (hl' e he).1) (hl e he).1 hf ?_, ?_⟩
    · exact hp.symm (hl e he).1 (hl' f hf).1 hkey
    · exact hp.symm (hl e he).2 (hl' f hf).2 hvalue

theorem elems_iff {xs ys : List Value} (hx : ∀ x ∈ xs, C x) (hy : ∀ y ∈ ys, C y)
    (hd : xs.Pairwise fun x y => p x y = false) :
    agreeBy p (.elems xs) (.elems ys) = true ↔ Matching (fun x y => p x y = true) xs ys := by
  simp only [agreeBy, Bool.and_eq_true, beq_iff_eq, List.all_eq_true, List.any_eq_true]
  constructor
  · rintro ⟨hlen, hsearch⟩
    refine Matching.of_search hlen hsearch (List.Pairwise.imp_of_mem ?_ hd)
    intro x x' hx₁ hx₂ hne y hy₁ hxy hx'y
    have := hp.trans (hx x hx₁) (hy y hy₁) (hx x' hx₂) hxy (hp.symm (hx x' hx₂) (hy y hy₁) hx'y)
    simp [hne] at this
  · exact fun h => ⟨h.length_eq, fun x hx => h.exists_right hx⟩

/-- A comparison of two contents pairs off their parts. -/
theorem agreeBy_iff (hc : c.Forall C) (hd : d.Forall C) (hc' : c.Distinct p)
    (hd' : d.Distinct p) : c.agreeBy p d = true ↔ Related p c d := by
  constructor
  · intro h
    cases c <;> cases d <;> simp only [agreeBy, Bool.false_eq_true] at h
    case atom.atom a b => exact .atom h
    case items.items xs ys => exact .items (isEqv_iff_forall₂.1 h)
    case entries.entries l l' => exact .entries ((entries_iff hp hc hd hc' hd').1 h)
    case elems.elems xs ys => exact .elems ((elems_iff hp hc hd hc').1 h)
  · intro h
    cases h with
    | atom h => exact h
    | items h => exact isEqv_iff_forall₂.2 h
    | entries h => exact (entries_iff hp hc hd hc' hd').2 h
    | elems h => exact (elems_iff hp hc hd hc').2 h

theorem Related.symm (hc : c.Forall C) (hd : d.Forall C) (h : Related p c d) : Related p d c := by
  cases h with
  | atom h => exact .atom (Atom.equals_symm h)
  | items h =>
    exact .items (forall₂_mono_mem h.flip fun y hy x hx => hp.symm (hc x hx) (hd y hy))
  | entries h =>
    refine .entries (h.symm.mono_mem fun f hf e he hef => ?_)
    exact ⟨hp.symm (hc e he).1 (hd f hf).1 hef.1, hp.symm (hc e he).2 (hd f hf).2 hef.2⟩
  | elems h => exact .elems (h.symm.mono_mem fun y hy x hx => hp.symm (hc x hx) (hd y hy))

theorem Related.trans (hc : c.Forall C) (hd : d.Forall C) (he : e.Forall C) (h : Related p c d)
    (h' : Related p d e) : Related p c e := by
  cases h with
  | atom h =>
    cases h' with
    | atom h' => exact .atom (Atom.equals_trans h h')
  | items h =>
    cases h' with
    | items h' =>
      have h := forall₂_mono_mem h fun x _ y hy hxy => And.intro hxy (hd y hy)
      refine .items (forall₂_mono_mem (forall₂_comp h h') ?_)
      rintro x hx z hz ⟨y, ⟨hxy, hy⟩, hyz⟩
      exact hp.trans (hc x hx) hy (he z hz) hxy hyz
  | entries h =>
    cases h' with
    | entries h' =>
      have h := h.mono_mem fun u _ v hv huv => And.intro huv (hd v hv)
      refine .entries ((h.trans h').mono_mem ?_)
      rintro u hu w hw ⟨v, ⟨huv, hv⟩, hvw⟩
      exact ⟨hp.trans (hc u hu).1 hv.1 (he w hw).1 huv.1 hvw.1,
        hp.trans (hc u hu).2 hv.2 (he w hw).2 huv.2 hvw.2⟩
  | elems h =>
    cases h' with
    | elems h' =>
      have h := h.mono_mem fun x _ y hy hxy => And.intro hxy (hd y hy)
      refine .elems ((h.trans h').mono_mem ?_)
      rintro x hx z hz ⟨y, ⟨hxy, hy⟩, hyz⟩
      exact hp.trans (hc x hx) hy (he z hz) hxy hyz

end

end Content

/-! ## Lawful values -/

namespace Value

/-- A map or a set as the operations build it. -/
def Made : Value → Prop
  | map m => m.Built fun _ => True
  | set s => s.Built fun _ => True
  | _ => True

/-- No lazy cell occurs in the value, the operations have built all its maps and sets, and all its
storage is that of the store. -/
structure Lawful (σ : Store) (v : Value) : Prop where
  lazyFree : v.LazyFree
  made : v.Everywhere Made
  stored : v.Everywhere σ.Holds

variable {σ : Store} {a b c : Value}

/-- Whether a value is lawful is a matter of the value itself and of its parts. -/
theorem lawful_iff {v : Value} : v.Lawful σ ↔
    (v.isLazy = false ∧ v.Made ∧ σ.Holds v) ∧ ∀ x ∈ v.parts, x.Lawful σ := by
  constructor
  · intro h
    exact ⟨⟨h.lazyFree.here, h.made.here, h.stored.here⟩,
      fun x hx => ⟨h.lazyFree.of_mem hx, h.made.of_mem hx, h.stored.of_mem hx⟩⟩
  · rintro ⟨⟨hfree, hmade, hstored⟩, hparts⟩
    exact ⟨everywhere_iff.2 ⟨hfree, fun x hx => (hparts x hx).lazyFree⟩,
      everywhere_iff.2 ⟨hmade, fun x hx => (hparts x hx).made⟩,
      everywhere_iff.2 ⟨hstored, fun x hx => (hparts x hx).stored⟩⟩

theorem lawful_atom (x : Atom) : (atom x).Lawful σ :=
  lawful_iff.2 ⟨⟨rfl, trivial, trivial⟩, by simp [parts]⟩

theorem lawful_empty (info : Info) : (seq (.empty info)).Lawful σ :=
  lawful_iff.2 ⟨⟨rfl, trivial, trivial⟩, by simp [parts]⟩

theorem Lawful.content (h : a.Lawful σ) : a.content.Forall (Lawful σ) := by
  have hmade := h.made.content fun _ => trivial
  have hstored := h.stored.content fun _ => trivial
  exact (h.lazyFree.content.and (hmade.and hstored)).imp fun x hx => ⟨hx.1, hx.2.1, hx.2.2⟩

theorem Lawful.distinct (h : a.Lawful σ) : a.content.Distinct agree := by
  have hfree := h.lazyFree.content
  cases a with
  | map m =>
    have hm : m.Built fun _ => True := h.made.here
    exact hm.distinct_of_lazyFree fun e he => (hfree e he).1
  | set s =>
    have hs : s.Built fun _ => True := h.made.here
    exact hs.separate.apart.imp_of_mem fun hx hy hapart => hapart (hfree _ hx) (hfree _ hy)
  | _ => trivial

/-- Lawful values agree if they are identical or their parts can be paired off. -/
theorem agree_iff_of {C : Value → Prop} (hp : PartialEquivalence C agree) (ha : a.Lawful σ)
    (hb : b.Lawful σ) (hca : a.content.Forall C) (hcb : b.content.Forall C) :
    agree a b = true ↔ a.identical b = true ∨ Content.Related agree a.content b.content := by
  rw [agree_eq, agreeBy, Bool.or_eq_true, Content.agreeBy_iff hp hca hcb ha.distinct hb.distinct]

/-- If agreement is a partial equivalence on what lawful values are made of, it is one on them. -/
theorem agree_partialEquivalence_step {C D : Value → Prop} (hp : PartialEquivalence C agree)
    (hD : ∀ v, D v → v.Lawful σ ∧ v.content.Forall C) : PartialEquivalence D agree := by
  have hiff {a b : Value} (ha : D a) (hb : D b) := agree_iff_of hp (hD a ha).1 (hD b hb).1
    (hD a ha).2 (hD b hb).2
  have hcontent {a b : Value} (ha : D a) (hb : D b) :=
    Store.content_eq_of_identical (hD a ha).1.stored.here (hD b hb).1.stored.here
  constructor
  · intro a b ha hb h
    rw [hiff hb ha]
    rcases (hiff ha hb).1 h with h | h
    · exact .inl (identical_comm a b ▸ h)
    · exact .inr (h.symm hp (hD a ha).2 (hD b hb).2)
  · intro a b c ha hb hc hab hbc
    rw [hiff ha hc]
    rcases (hiff ha hb).1 hab with hab | hab <;> rcases (hiff hb hc).1 hbc with hbc | hbc
    · exact .inl (identical_trans hab hbc)
    · exact .inr (hcontent ha hb hab ▸ hbc)
    · exact .inr (hcontent hb hc hbc ▸ hab)
    · exact .inr (hab.trans hp (hD a ha).2 (hD b hb).2 (hD c hc).2 hbc)

/-- Agreement is symmetric and transitive on lawful values. -/
theorem agree_partialEquivalence (σ : Store) : PartialEquivalence (Lawful σ) agree := by
  have below (d : Nat) : PartialEquivalence (fun v => v.Lawful σ ∧ v.weight < d) agree := by
    induction d with
    | zero => exact ⟨fun h => absurd h.2 (by omega), fun h => absurd h.2 (by omega)⟩
    | succ d ih =>
      refine agree_partialEquivalence_step ih fun v hv => ⟨hv.1, ?_⟩
      exact (hv.1.content.and v.weight_content).imp fun x hx => ⟨hx.1, by omega⟩
  refine ⟨fun {a b} ha hb => ?_, fun {a b c} ha hb hc => ?_⟩
  · exact (below (a.weight + b.weight + 1)).symm ⟨ha, by omega⟩ ⟨hb, by omega⟩
  · exact (below (a.weight + b.weight + c.weight + 1)).trans ⟨ha, by omega⟩ ⟨hb, by omega⟩
      ⟨hc, by omega⟩

theorem Lawful.agree_iff (ha : a.Lawful σ) (hb : b.Lawful σ) :
    agree a b = true ↔ a.identical b = true ∨ Content.Related agree a.content b.content :=
  agree_iff_of (agree_partialEquivalence σ) ha hb ha.content hb.content

/-! ## Reflexivity -/

theorem equals_self {a : Atom} (h : (atom a).isNaN = false) : a.equals a = true := by
  cases a with
  | double d =>
    have : d.isNaN = false := h
    simp [Atom.equals, Double.equals, this]
  | _ => simp [Atom.equals, Var.same, Proc.same]

/-- Sequences and maps agree with themselves by identity, other values through their parts. -/
theorem agree_self {v : Value} (h : v.NaNFree) : agree v v = true := by
  induction hd : v.weight using Nat.strongRecOn generalizing v with
  | ind d ih =>
    have hself : v.content.Forall fun x => agree x x = true :=
      (h.content.and v.weight_content).imp fun x hx => ih x.weight (hd ▸ hx.2) hx.1 rfl
    rw [agree_eq, agreeBy, Bool.or_eq_true]
    cases v with
    | atom a => exact .inr (equals_self h.here)
    | vector v => exact .inr (isEqv_iff_forall₂.2 (List.forall₂_same.2 hself))
    | map m => exact .inl (beq_self_eq_true m.storage)
    | set s =>
      refine .inr ?_
      simp only [content, Content.agreeBy, beq_self_eq_true, Bool.true_and, List.all_eq_true,
        List.any_eq_true]
      exact fun x hx => ⟨x, hx, hself x hx⟩
    | seq s => exact .inl s.same_self

end Value

end LispKernel
