import LispKernel.Proofs.Equality.Agreement
import LispKernel.Proofs.Outcome

/-!
# What map and set operations come to

If the comparison always gives the answer of a test on the keys in use, every operation on maps
returns, and the entries of its result are a table operation applied to the entries it was given.
-/
namespace LispKernel

open Run (ReturnsIn)

variable {I : World → Prop}

/-- On the values of a class the comparison always returns the answer of the test. -/
def Comparison.Decides (eq : Comparison) (I : World → Prop) (C : Value → Prop) (p : Test) : Prop :=
  ∀ a b, C a → C b → (eq a b).ReturnsIn I (· = p a b)

theorem Comparison.Decides.lenient {eq : Comparison} {C : Value → Prop} {p : Test}
    (h : eq.Decides I C p) : eq.lenient.Decides I C p :=
  fun a b ha hb => (h a b ha hb).lenient

/-- Setting at the place that a search has found. -/
theorem Table.put_eq (p : Test) (key value : Value) (entries : List (Value × Value)) :
    Table.put p key value entries =
      match entries.findIdx? fun e => p e.1 key with
      | some i => entries.modify i fun e => (e.1, value)
      | none => entries ++ [(key, value)] := by
  induction entries with
  | nil => rfl
  | cons e entries ih =>
    rw [put, ih, List.findIdx?_cons]
    cases p e.1 key with
    | true => simp
    | false =>
      cases entries.findIdx? fun e => p e.1 key <;> simp

theorem Run.reject_returns {α : Type} {f : α → Run Bool} {q : α → Bool} {l : List α}
    (h : ∀ x ∈ l, (f x).ReturnsIn I (· = q x)) :
    (Run.reject f l).ReturnsIn I (· = l.filter fun x => !q x) := by
  induction l with
  | nil => exact .pure rfl
  | cons x l ih =>
    refine (h x (by simp)).bind fun drop hdrop => ?_
    refine (ih fun y hy => h y (by simp [hy])).bind fun rest hrest => .pure ?_
    subst hdrop hrest
    cases hx : q x <;> simp [hx]

variable {eq : Comparison} {C : Value → Prop} {p : Test}

namespace Dict

variable {m other : Dict} {key value : Value} {entries : List (Value × Value)}

theorem indexOf_returns (heq : eq.Decides I C p) (hkey : C key) (h : ∀ e ∈ entries, C e.1) :
    (indexOf eq key entries).ReturnsIn I (· = entries.findIdx? fun e => p e.1 key) := by
  induction entries with
  | nil => exact .pure rfl
  | cons e entries ih =>
    refine (heq e.1 key (h e (by simp)) hkey).bind fun found hfound => ?_
    subst hfound
    rw [List.findIdx?_cons]
    cases p e.1 key with
    | true => exact .pure rfl
    | false =>
      refine (ih fun f hf => h f (by simp [hf])).bind fun i hi => .pure ?_
      simp [hi]

theorem tryGet_returns (heq : eq.Decides I C p) (hkey : C key) (h : ∀ e ∈ m.entries, C e.1) :
    (m.tryGet eq key).ReturnsIn I (· = Table.lookup p key m.entries) := by
  refine (indexOf_returns heq hkey h).bind fun i hi => .pure ?_
  rw [hi, Table.lookup, Table.find?, List.find?_eq_bind_findIdx?_getElem?]
  cases m.entries.findIdx? fun e => p e.1 key <;> rfl

theorem get_returns (heq : eq.Decides I C p) (hkey : C key) (h : ∀ e ∈ m.entries, C e.1) :
    (m.get eq key).ReturnsIn I (· = Table.lookup p key m.entries) :=
  tryGet_returns heq.lenient hkey h

theorem replace_returns (hI : Elastic I) (m : Dict) (entries : List (Value × Value)) :
    (m.replace entries).ReturnsIn I (·.entries = entries) :=
  (ReturnsIn.freshStorage hI).bind fun _ _ => .pure rfl

theorem set_returns (hI : Elastic I) (heq : eq.Decides I C p) (hkey : C key)
    (h : ∀ e ∈ m.entries, C e.1) :
    (m.set eq key value).ReturnsIn I (·.entries = Table.put p key value m.entries) := by
  refine (indexOf_returns heq.lenient hkey h).bind fun i hi => ?_
  rw [Table.put_eq, ← hi]
  cases i <;> exact replace_returns hI m _

theorem add?_returns (hI : Elastic I) (heq : eq.Decides I C p) (hkey : C key)
    (h : ∀ e ∈ m.entries, C e.1) : (m.add? eq key value).ReturnsIn I fun added =>
      (added = none ↔ ∃ e ∈ m.entries, p e.1 key = true) ∧
        ∀ m' ∈ added, m'.entries = m.entries ++ [(key, value)] := by
  refine (indexOf_returns heq hkey h).bind fun i hi => ?_
  subst hi
  cases hfind : m.entries.findIdx? fun e => p e.1 key with
  | none =>
    refine (replace_returns hI m _).bind fun m' hm' => .pure ⟨?_, by simpa using hm'⟩
    simpa using List.findIdx?_eq_none_iff.1 hfind
  | some i =>
    refine .pure ⟨?_, by simp⟩
    simpa using List.findIdx?_isSome.symm.trans (congrArg Option.isSome hfind)

theorem assoc_returns (hI : Elastic I) (heq : eq.Decides I C p) (hkey : C key)
    (h : ∀ e ∈ m.entries, C e.1) :
    (m.assoc eq key value).ReturnsIn I (·.entries = Table.put p key value m.entries) :=
  set_returns hI (m := m.detached) heq hkey h

theorem without_returns (hI : Elastic I) (heq : eq.Decides I C p) (hkey : C key)
    (h : ∀ e ∈ m.entries, C e.1) :
    (m.without eq key).ReturnsIn I (·.entries = Table.erase p key m.entries) := by
  refine (Run.reject_returns fun e he => (heq e.1 key (h e he) hkey).lenient).bind fun l hl => ?_
  subst hl
  exact replace_returns hI m.detached _

theorem setAll_returns (hI : Elastic I) (heq : eq.Decides I C p) (h : ∀ e ∈ m.entries, C e.1)
    (h' : ∀ e ∈ entries, C e.1) :
    (m.setAll eq entries).ReturnsIn I (·.entries = Table.putAll p m.entries entries) := by
  unfold setAll
  induction entries generalizing m with
  | nil => exact .pure rfl
  | cons e entries ih =>
    rw [List.foldlM_cons]
    refine (set_returns hI heq (h' e (by simp)) h).bind fun m' hm' => ?_
    have := ih (m := m') (hm' ▸ Table.keys_put C (h' e (by simp)) h) fun f hf => h' f (by simp [hf])
    rw [hm'] at this
    exact this

theorem merge_returns (hI : Elastic I) (heq : eq.Decides I C p) (h : ∀ e ∈ m.entries, C e.1)
    (h' : ∀ e ∈ other.entries, C e.1) (hd : Table.Distinct p other.entries) :
    (m.merge eq other).ReturnsIn I (·.entries = Table.putAll p m.entries other.entries) := by
  unfold merge
  split
  · next hempty =>
    have hnil : other.entries = [] := List.isEmpty_iff.1 hempty
    exact .pure (by rw [hnil]; rfl)
  · split
    · next hempty =>
      have hnil : m.entries = [] := List.isEmpty_iff.1 hempty
      exact .pure (by rw [hnil, Table.putAll_nil hd])
    · exact setAll_returns hI (m := m.detached) heq h h'

theorem within_returns (heq : eq.Decides I C p) (h : ∀ e ∈ other.entries, C e.1 ∧ C e.2)
    (h' : ∀ e ∈ entries, C e.1 ∧ C e.2) :
    (within eq other entries).ReturnsIn I
      (· = entries.all fun e => (Table.find? p e.1 other.entries).any fun f => p f.2 e.2) := by
  induction entries with
  | nil => exact .pure rfl
  | cons e entries ih =>
    obtain ⟨hkey, hvalue⟩ := h' e (by simp)
    have ih := ih fun f hf => h' f (by simp [hf])
    refine (get_returns heq hkey fun f hf => (h f hf).1).bind fun found hfound => ?_
    rw [Table.lookup] at hfound
    cases hf : Table.find? p e.1 other.entries with
    | none =>
      rw [hf] at hfound
      subst hfound
      exact .pure (by simp [hf])
    | some f =>
      rw [hf] at hfound
      subst hfound
      have hmem := List.mem_of_find?_eq_some hf
      refine (heq f.2 e.2 (h f hmem).2 hvalue).bind fun same hsame => ?_
      subst hsame
      rw [List.all_cons, hf]
      cases hfe : p f.2 e.2 with
      | false => exact .pure (by simp [hfe])
      | true => exact ih.mono fun r hr => by simp [hr, hfe]

theorem equal_returns (heq : eq.Decides I C p) (h : ∀ e ∈ m.entries, C e.1 ∧ C e.2)
    (h' : ∀ e ∈ other.entries, C e.1 ∧ C e.2) :
    (m.equal eq other).ReturnsIn I (· = Value.agreeBy p (.map m) (.map other)) := by
  simp only [Value.agreeBy, Value.identical, Value.content, Content.agreeBy]
  unfold equal count
  split
  · next hsame => exact .pure (by simp [hsame])
  · next hsame =>
    split
    · next hcount => exact .pure (by simp [hsame, hcount])
    · next hcount =>
      refine (within_returns heq h' h).mono fun r hr => ?_
      simp [hsame, Classical.not_not.1 hcount, hr]

end Dict

namespace ElemSet

variable {s other : ElemSet} {items : List Value}

theorem anyM_returns {f : Value → Run Bool} {q : Value → Bool}
    (h : ∀ x ∈ items, (f x).ReturnsIn I (· = q x)) :
    (anyM f items).ReturnsIn I (· = items.any q) := by
  induction items with
  | nil => exact .pure rfl
  | cons x items ih =>
    refine (h x (by simp)).bind fun found hfound => ?_
    rw [List.any_cons, ← hfound]
    cases found with
    | true => exact .pure rfl
    | false => exact (ih fun y hy => h y (by simp [hy])).mono fun r hr => by simp [hr]

theorem within_returns (heq : eq.Decides I C p) (h : ∀ y ∈ other.items, C y)
    (h' : ∀ x ∈ items, C x) :
    (within eq other items).ReturnsIn I (· = items.all fun x => other.items.any (p x)) := by
  induction items with
  | nil => exact .pure rfl
  | cons x items ih =>
    refine (anyM_returns fun y hy => heq x y (h' x (by simp)) (h y hy)).bind fun found hfound => ?_
    rw [List.all_cons, ← hfound]
    cases found with
    | false => exact .pure rfl
    | true => exact (ih fun y hy => h' y (by simp [hy])).mono fun r hr => by simp [hr]

theorem equal_returns (heq : eq.Decides I C p) (h : ∀ x ∈ s.items, C x)
    (h' : ∀ y ∈ other.items, C y) :
    (s.equal eq other).ReturnsIn I (· = Value.agreeBy p (.set s) (.set other)) := by
  simp only [Value.agreeBy, Value.identical, Value.content, Content.agreeBy]
  unfold equal count
  split
  · next hcount => exact .pure (by simp [hcount])
  · next hcount =>
    refine (within_returns heq h' h).mono fun r hr => ?_
    simp [Classical.not_not.1 hcount, hr]

end ElemSet

end LispKernel
