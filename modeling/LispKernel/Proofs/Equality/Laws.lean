import LispKernel.Proofs.Equality.Relation

/-!
# Laws of equality

Two values are equal if comparing them comes to true. On lawful values the comparison always has an
answer, equality is symmetric and transitive even where a NaN occurs, and a value without NaN is
equal to itself.
-/
namespace LispKernel.Value

open Run (Settles)

variable (force : Force)

/-- The comparison of the two values settles on true. -/
def Equal (a b : Value) : Prop := Settles (fun n => a.equals force n b) (· = true)

variable {a b : Value}

theorem equal_iff_agree (ha : a.LazyFree) (hb : b.LazyFree) :
    Equal force a b ↔ agree a b = true := by
  have hsettles := equals_settles force ha hb
  constructor
  · exact fun h => hsettles.unique h
  · intro h
    rw [h] at hsettles
    exact hsettles

theorem agree_isNaN (h : a.isNaN = true) : agree a b = false := by
  cases a with
  | atom a =>
    cases a with
    | double d =>
      have hd : d.isNaN = true := h
      rw [agree_eq, agreeBy]
      cases b with
      | atom b =>
        cases b <;> simp [identical, content, Content.agreeBy, Atom.equals, Double.equals, hd]
      | _ => rfl
    | _ => cases h
  | _ => cases h

/-- Equality of lawful values is decided whatever cells can be forced, and it is a partial
equivalence that is reflexive wherever no NaN occurs. A NaN itself is equal to nothing. -/
theorem equality_laws (force : Force) {σ : Store} {a b c : Value} (ha : a.Lawful σ)
    (hb : b.Lawful σ) (hc : c.Lawful σ) :
    (∃ r, Settles (fun n => a.equals force n b) (· = r)) ∧
    (Equal force a b → Equal force b a) ∧
    (Equal force a b → Equal force b c → Equal force a c) ∧
    (a.NaNFree → Equal force a a) ∧
    (a.isNaN = true → ¬ Equal force a b) := by
  have hper := agree_partialEquivalence σ
  have hab := equal_iff_agree force ha.lazyFree hb.lazyFree
  refine ⟨⟨agree a b, equals_settles force ha.lazyFree hb.lazyFree⟩, ?_, ?_, ?_, ?_⟩
  · rw [hab, equal_iff_agree force hb.lazyFree ha.lazyFree]
    exact hper.symm ha hb
  · rw [hab, equal_iff_agree force hb.lazyFree hc.lazyFree,
      equal_iff_agree force ha.lazyFree hc.lazyFree]
    exact hper.trans ha hb hc
  · rw [equal_iff_agree force ha.lazyFree ha.lazyFree]
    exact agree_self
  · intro hnan
    simp [hab, agree_isNaN hnan]

/-- Three ways to list one map that holds a NaN. -/
theorem equality_laws_shared_nan :
    let m : Dict := ⟨1, [(.int 1, .double ⟨0x7ff8000000000000⟩)], .plain⟩
    let a : Value := .seq (.view .array 2 ⟨#[.map m], 0⟩ .plain)
    let b : Value := .vector ⟨⟨3, [.map m]⟩, .plain⟩
    let c : Value := .seq (.cons 4 (.map m) (.empty .plain) .plain)
    let σ : Store := ⟨fun _ => (.map m, .empty .plain), fun _ => [.map m], fun _ => m.entries⟩
    (a.Lawful σ ∧ b.Lawful σ ∧ c.Lawful σ) ∧ ¬ a.NaNFree ∧
      Equal (fun _ => Run.exhausted) a c := by
  intro m a b c σ
  have hrun : Dict.ofList (equals (fun _ => Run.exhausted) 1) m.entries {} =
      some (.ok m, { storages := 2 }) := rfl
  have hbuilt : m.Built fun _ => True := .ofList (fun _ _ => trivial) hrun
  have hm : (map m).Lawful σ := lawful_iff.2 ⟨⟨rfl, hbuilt, rfl⟩, by simp [parts, m, lawful_atom]⟩
  have ha : a.Lawful σ :=
    lawful_iff.2 ⟨⟨rfl, trivial, rfl⟩, by simp [parts, a, Slice.toList, hm]⟩
  have hb : b.Lawful σ := lawful_iff.2 ⟨⟨rfl, trivial, trivial⟩, by simp [parts, b, Vec.items, hm]⟩
  have hc : c.Lawful σ := lawful_iff.2 ⟨⟨rfl, trivial, rfl⟩, by simp [parts, c, hm, lawful_empty]⟩
  refine ⟨⟨ha, hb, hc⟩, fun h => ?_, ?_⟩
  · have hmem : map m ∈ a.parts := by simp [parts, a, Slice.toList]
    have hnan := (h.of_mem hmem).entry (List.mem_singleton.2 rfl)
    exact absurd hnan.2.here (by decide)
  · apply (equality_laws _ ha hb hc).2.2.1
    · exact (equal_iff_agree _ ha.lazyFree hb.lazyFree).2 (by decide)
    · exact (equal_iff_agree _ hb.lazyFree hc.lazyFree).2 (by decide)

end LispKernel.Value
