import LispKernel.Proofs.Value.Parts

/-!
# Contents of values

What a comparison or a hash sees of a value: an atom, elements in order, entries, or elements in
any order. Vectors and sequences with the same elements have the same content, whatever storage
they are in. A store says what is in each piece of storage; two values of one store that are
identical have the same content.
-/
namespace LispKernel

inductive Content where
  | atom (a : Atom)
  | items (xs : List Value)
  | entries (l : List (Value × Value))
  | elems (xs : List Value)

namespace Content

/-- The condition holds of every element, key and value. -/
def Forall (P : Value → Prop) : Content → Prop
  | atom _ => True
  | items xs => ∀ x ∈ xs, P x
  | entries l => ∀ e ∈ l, P e.1 ∧ P e.2
  | elems xs => ∀ x ∈ xs, P x

theorem Forall.imp {P Q : Value → Prop} {c : Content} (h : ∀ x, P x → Q x) (hc : c.Forall P) :
    c.Forall Q := by
  cases c with
  | atom a => trivial
  | items xs => exact fun x hx => h x (hc x hx)
  | entries l => exact fun e he => ⟨h _ (hc e he).1, h _ (hc e he).2⟩
  | elems xs => exact fun x hx => h x (hc x hx)

theorem Forall.and {P Q : Value → Prop} {c : Content} (hP : c.Forall P) (hQ : c.Forall Q) :
    c.Forall fun x => P x ∧ Q x := by
  cases c with
  | atom a => trivial
  | items xs => exact fun x hx => ⟨hP x hx, hQ x hx⟩
  | entries l => exact fun e he => ⟨⟨(hP e he).1, (hQ e he).1⟩, (hP e he).2, (hQ e he).2⟩
  | elems xs => exact fun x hx => ⟨hP x hx, hQ x hx⟩

end Content

namespace Value

def content : Value → Content
  | atom a => .atom a
  | vector v => .items v.items
  | map m => .entries m.entries
  | set s => .elems s.items
  | seq s => .items s.items

theorem weight_content (v : Value) : v.content.Forall fun x => x.weight < v.weight := by
  cases v with
  | atom a => trivial
  | vector v => exact fun x hx => v.weight_lt_of_mem hx
  | map m => exact fun e he => Dict.weight_lt_of_mem he
  | set s => exact fun x hx => s.weight_lt_of_mem hx
  | seq s => exact fun x hx => s.weight_lt_of_mem hx

/-- What occurs in the content occurs in the value, but for the vectors that entries are seen as. -/
theorem Everywhere.content {P : Value → Prop} (hP : ∀ v, P (vector v)) {v : Value}
    (h : v.Everywhere P) : v.content.Forall fun x => x.Everywhere P := by
  cases v with
  | atom a => trivial
  | vector v => exact fun x hx => h.of_mem hx
  | map m => exact fun e he => h.entry he
  | set s => exact fun x hx => h.of_mem hx
  | seq s => exact h.items hP

theorem LazyFree.content {v : Value} (h : v.LazyFree) : v.content.Forall LazyFree :=
  Everywhere.content (fun _ => rfl) h

theorem NaNFree.content {v : Value} (h : v.NaNFree) : v.content.Forall NaNFree :=
  Everywhere.content (fun _ => rfl) h

/-! ## Identity -/

/-- Two maps in the same storage, or two sequences that are the same view of the same storage. -/
def identical : Value → Value → Bool
  | map m, map o => m.same o
  | seq s, seq t => s.same t
  | _, _ => false

end Value

theorem Seq.same_comm (s t : Seq) : s.same t = t.same s := by
  cases s <;> cases t <;> simp only [Seq.same, Bool.beq_comm]

theorem Seq.same_trans {s t u : Seq} (hst : s.same t = true) (htu : t.same u = true) :
    s.same u = true := by
  cases s <;> cases t <;> cases u <;> simp_all [Seq.same]

theorem Seq.same_self (s : Seq) : s.same s = true := by
  cases s <;> simp [Seq.same]

namespace Value

theorem identical_comm (a b : Value) : a.identical b = b.identical a := by
  cases a <;> cases b <;> simp only [identical, Dict.same, Bool.beq_comm, Seq.same_comm]

theorem identical_trans {a b c : Value} (hab : a.identical b = true) (hbc : b.identical c = true) :
    a.identical c = true := by
  cases a <;> cases b <;> simp only [identical, Bool.false_eq_true] at hab
  case map.map m o =>
    cases c <;> simp only [identical, Bool.false_eq_true] at hbc
    simp_all [identical, Dict.same]
  case seq.seq s t =>
    cases c <;> simp only [identical, Bool.false_eq_true] at hbc
    exact Seq.same_trans hab hbc

end Value

/-- What each piece of storage holds: a cell its element and what comes after it, the storage of
a vector or an array its elements, the storage of a map its entries. -/
structure Store where
  cell : Storage → Value × Seq
  block : Storage → List Value
  table : Storage → List (Value × Value)

namespace Store

/-- What the value shows of its storage is what the store has there. -/
def Holds (σ : Store) : Value → Prop
  | .map m => m.entries = σ.table m.storage
  | .seq (.cons cell x rest _) => σ.cell cell = (x, rest)
  | .seq (.view _ storage slice _) => slice.buffer.toList = σ.block storage
  | .seq (.entries storage slice _) =>
    slice.buffer.toList = (σ.table storage).flatMap fun entry => [entry.1, entry.2]
  | _ => True

variable {σ : Store}

/-- Sequences that are the same view of the same storage differ in their information alone. -/
theorem withInfo_eq_of_same {s t : Seq} (hs : σ.Holds (.seq s)) (ht : σ.Holds (.seq t))
    (h : s.same t = true) (info : Info) : s.withInfo info = t.withInfo info := by
  cases s <;> cases t <;>
    simp only [Seq.same, Bool.false_eq_true, beq_iff_eq, Bool.and_eq_true] at h
  case empty.empty => rfl
  case cons.cons =>
    simp only [Holds, h] at hs ht
    rw [hs] at ht
    cases ht
    rw [h]
    rfl
  case view.view kind storage slice i kind' storage' slice' i' =>
    obtain ⟨⟨rfl, rfl⟩, hindex⟩ := h
    rcases slice with ⟨buffer, index⟩
    rcases slice' with ⟨buffer', index'⟩
    obtain rfl : buffer = buffer' := Array.ext' (hs.trans ht.symm)
    cases hindex
    rfl
  case entries.entries storage slice i storage' slice' i' =>
    obtain ⟨rfl, hindex⟩ := h
    rcases slice with ⟨buffer, index⟩
    rcases slice' with ⟨buffer', index'⟩
    obtain rfl : buffer = buffer' := Array.ext' (hs.trans ht.symm)
    cases hindex
    rfl
  case lazy.lazy =>
    rw [h]
    rfl

theorem items_eq_of_same {s t : Seq} (hs : σ.Holds (.seq s)) (ht : σ.Holds (.seq t))
    (h : s.same t = true) : s.items = t.items := by
  have hitems (s : Seq) : (s.withInfo .plain).items = s.items := by cases s <;> rfl
  rw [← hitems s, withInfo_eq_of_same hs ht h, hitems]

theorem content_eq_of_identical {a b : Value} (ha : σ.Holds a) (hb : σ.Holds b)
    (h : a.identical b = true) : a.content = b.content := by
  cases a <;> cases b <;> simp only [Value.identical, Bool.false_eq_true] at h
  case map.map m o =>
    simp only [Holds] at ha hb
    rw [Value.content, Value.content, ha, hb, beq_iff_eq.1 h]
  case seq.seq s t => rw [Value.content, Value.content, items_eq_of_same ha hb h]

end Store

end LispKernel
