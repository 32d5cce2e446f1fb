import LispKernel.Proofs.Matching
import LispKernel.Proofs.Table
import LispKernel.Proofs.Value.Content
import LispKernel.Equality

/-!
# Agreement of values

The answer of a comparison as a function of the two values alone. One step compares two values,
given a test for what they are made of; agreement is the step repeated as often as the values are
deep. It says what the comparison of values without lazy cells comes to.
-/
namespace LispKernel

/-- A test that always has an answer. -/
abbrev Test := Value → Value → Bool

/-- Entries are searched for in the second content, and so are elements whose order is of no
account. -/
def Content.agreeBy (p : Test) : Content → Content → Bool
  | atom a, atom b => a.equals b
  | items xs, items ys => xs.isEqv ys p
  | entries l, entries l' => l.length == l'.length &&
      l.all fun e => (Table.find? p e.1 l').any fun f => p f.2 e.2
  | elems xs, elems ys => xs.length == ys.length && xs.all fun x => ys.any (p x)
  | _, _ => false

namespace Value

/-- One step of a comparison. -/
def agreeBy (p : Test) : Test := fun a b => a.identical b || a.content.agreeBy p b.content

def agreeAt : Nat → Test
  | 0 => fun _ _ => false
  | n + 1 => agreeBy (agreeAt n)

/-- Whether two values without lazy cells are equal. -/
def agree : Test := fun a b => agreeAt (a.weight + b.weight) a b

end Value

/-! ## A step looks at lighter values only -/

section Congruence

variable {p q : Test}

theorem isEqv_congr {xs ys : List Value} (h : ∀ x ∈ xs, ∀ y ∈ ys, p x y = q x y) :
    xs.isEqv ys p = xs.isEqv ys q := by
  induction xs generalizing ys with
  | nil => cases ys <;> rfl
  | cons x xs ih =>
    cases ys with
    | nil => rfl
    | cons y ys =>
      simp only [List.isEqv, h x (by simp) y (by simp)]
      rw [ih fun x hx y hy => h x (by simp [hx]) y (by simp [hy])]

theorem Content.agreeBy_congr {C D : Value → Prop} {c d : Content} (hc : c.Forall C)
    (hd : d.Forall D) (h : ∀ x y, C x → D y → p x y = q x y ∧ p y x = q y x) :
    c.agreeBy p d = c.agreeBy q d := by
  cases c <;> cases d <;> simp only [agreeBy]
  case items.items xs ys => exact isEqv_congr fun x hx y hy => (h x y (hc x hx) (hd y hy)).1
  case entries.entries l l' =>
    congr 1
    rw [Bool.eq_iff_iff, List.all_eq_true, List.all_eq_true]
    refine forall₂_congr fun e he => ?_
    have hfind : Table.find? p e.1 l' = Table.find? q e.1 l' :=
      Table.find?_congr fun f hf => (h _ _ (hc e he).1 (hd f hf).1).2
    rw [hfind]
    cases hf : Table.find? q e.1 l' with
    | none => simp
    | some f => simp [(h _ _ (hc e he).2 (hd f (List.mem_of_find?_eq_some hf)).2).2]
  case elems.elems xs ys =>
    congr 1
    rw [Bool.eq_iff_iff, List.all_eq_true, List.all_eq_true]
    refine forall₂_congr fun x hx => ?_
    rw [List.any_eq_true, List.any_eq_true]
    exact exists_congr fun y => and_congr_right fun hy => by rw [(h x y (hc x hx) (hd y hy)).1]

namespace Value

theorem agreeBy_congr {a b : Value}
    (h : ∀ x y, x.weight + y.weight < a.weight + b.weight → p x y = q x y) :
    agreeBy p a b = agreeBy q a b := by
  unfold agreeBy
  rw [Content.agreeBy_congr a.weight_content b.weight_content]
  exact fun x y hx hy => ⟨h x y (by omega), h y x (by omega)⟩

theorem agreeAt_stable {n m : Nat} {a b : Value} (hn : a.weight + b.weight ≤ n)
    (hm : a.weight + b.weight ≤ m) : agreeAt n a b = agreeAt m a b := by
  induction n generalizing m a b with
  | zero =>
    have := three_le_weight a
    omega
  | succ n ih =>
    cases m with
    | zero =>
      have := three_le_weight a
      omega
    | succ m => exact agreeBy_congr fun x y h => ih (by omega) (by omega)

/-- Agreement is agreement of what the values are made of. -/
theorem agree_eq (a b : Value) : agree a b = agreeBy agree a b := by
  rw [agree, ← agreeAt_stable (n := a.weight + b.weight + 1) (by omega) (by omega)]
  exact agreeBy_congr fun x y h => agreeAt_stable (by omega) (by omega)

end Value

end Congruence

/-! ## Copies -/

/-- The same value, except that a vector may be in other storage. -/
inductive Value.Copy : Value → Value → Prop where
  | refl (v : Value) : Copy v v
  | vector (s t : Storage) (items : List Value) (info : Info) :
      Copy (.vector ⟨⟨s, items⟩, info⟩) (.vector ⟨⟨t, items⟩, info⟩)

namespace Value.Copy

variable {a a' b b' : Value}

theorem trans {c : Value} (hab : Copy a b) (hbc : Copy b c) : Copy a c := by
  cases hab with
  | refl => exact hbc
  | vector s t items info =>
    cases hbc with
    | refl => exact .vector s t items info
    | vector _ u => exact .vector s u items info

theorem weight_eq (h : Copy a a') : a.weight = a'.weight := by
  cases h <;> rfl

theorem content_eq (h : Copy a a') : a.content = a'.content := by
  cases h <;> rfl

theorem identical_eq (h : Copy a a') (b : Value) : a.identical b = a'.identical b := by
  cases h <;> rfl

theorem agree_eq (ha : Copy a a') (hb : Copy b b') : agree a b = agree a' b' := by
  rw [Value.agree_eq, Value.agree_eq a', agreeBy, agreeBy, ha.content_eq, hb.content_eq,
    ha.identical_eq, identical_comm, hb.identical_eq, identical_comm]

end Value.Copy

end LispKernel
