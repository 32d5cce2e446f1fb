import Mathlib.Data.List.TakeWhile
import LispKernel.Render

/-!
# Names and their texts

A text is cut at its first slash only, so the name that is read from it always prints as the text
again. Not every name can be read back: a namespace with a slash of its own loses it to the name,
and an empty part or a slash inside a name without a namespace moves the cut.
-/
namespace LispKernel.Name

/-- The names that are read from some text. With a namespace, neither part is empty and the first
slash is the one between them; without one, the first slash is at the very beginning or end. -/
def Readable : Name → Prop
  | ⟨some ns, name⟩ => ns ≠ "" ∧ '/' ∉ ns.toList ∧ name ≠ ""
  | ⟨none, name⟩ => ∀ i ∈ name.toList.idxOf? '/', i = 0 ∨ i + 1 = name.toList.length

instance : DecidablePred Readable
  | ⟨some ns, name⟩ => inferInstanceAs (Decidable (ns ≠ "" ∧ '/' ∉ ns.toList ∧ name ≠ ""))
  | ⟨none, name⟩ => inferInstanceAs (Decidable
      (∀ i ∈ name.toList.idxOf? '/', i = 0 ∨ i + 1 = name.toList.length))

/-! ## The first slash -/

section FirstSlash

variable {cs before after : List Char}

/-- What has no slash passes the test for other characters. -/
theorem forall_ne_slash (h : '/' ∉ cs) : ∀ c ∈ cs, decide (c ≠ '/') = true := by
  intro c hc
  simpa using ne_of_mem_of_not_mem hc h

theorem takeWhile_slash (h : '/' ∉ before) :
    (before ++ '/' :: after).takeWhile (· ≠ '/') = before := by
  rw [List.takeWhile_append_of_pos (forall_ne_slash h)]
  simp

theorem dropWhile_slash (h : '/' ∉ before) :
    (before ++ '/' :: after).dropWhile (· ≠ '/') = '/' :: after := by
  rw [List.dropWhile_append_of_pos (forall_ne_slash h)]
  simp

theorem idxOf?_slash (h : '/' ∉ before) :
    (before ++ '/' :: after).idxOf? '/' = some before.length := by
  have hbefore : before.findIdx? (· == '/') = none := List.idxOf?_eq_none_iff.2 h
  rw [List.idxOf?, List.findIdx?_append, hbefore, List.findIdx?_cons]
  simp

end FirstSlash

/-- A text has no slash or a first one. -/
theorem slash_cases (text : String) : '/' ∉ text.toList ∨
    ∃ before after, text.toList = before ++ '/' :: after ∧ '/' ∉ before := by
  by_cases h : '/' ∈ text.toList
  · exact .inr (List.eq_append_cons_of_mem h)
  · exact .inl h

/-! ## Reading -/

/-- Without a slash there is nothing to cut. -/
theorem parse_of_not_mem {text : String} (h : '/' ∉ text.toList) : parse text = ⟨none, text⟩ := by
  have hrest : text.toList.dropWhile (· ≠ '/') = [] :=
    List.dropWhile_eq_nil_iff.2 (forall_ne_slash h)
  rw [parse, hrest]
  cases text.toList.takeWhile (· ≠ '/') <;> rfl

/-- The text is cut at the first slash if something stands on either side. -/
theorem parse_of_slash {text : String} {before after : List Char}
    (htext : text.toList = before ++ '/' :: after) (h : '/' ∉ before) :
    parse text = if before = [] ∨ after = [] then ⟨none, text⟩
      else ⟨some (String.ofList before), String.ofList after⟩ := by
  simp only [parse, htext, takeWhile_slash h, dropWhile_slash h]
  cases before with
  | nil => simp
  | cons b before => cases after <;> simp

theorem toString_parse (text : String) : toString (parse text) = text := by
  rcases slash_cases text with h | ⟨before, after, htext, h⟩
  · rw [parse_of_not_mem h]
    rfl
  · rw [parse_of_slash htext h]
    split
    · rfl
    · apply String.toList_injective
      show (String.ofList before ++ "/" ++ String.ofList after).toList = _
      simp [htext]

theorem readable_parse (text : String) : (parse text).Readable := by
  rcases slash_cases text with h | ⟨before, after, htext, h⟩
  · rw [parse_of_not_mem h]
    simp [Readable, List.idxOf?_eq_none_iff.2 h]
  · rw [parse_of_slash htext h]
    by_cases hend : before = [] ∨ after = []
    · rw [if_pos hend, Readable, htext, idxOf?_slash h]
      rcases hend with rfl | rfl <;> simp
    · rw [not_or] at hend
      simp [Readable, hend, h]

theorem parse_toString {n : Name} (h : n.Readable) : parse (toString n) = n := by
  obtain ⟨ns, name⟩ := n
  cases ns with
  | some ns =>
    obtain ⟨hns, hslash, hname⟩ := h
    have htext : (toString (⟨some ns, name⟩ : Name)).toList = ns.toList ++ '/' :: name.toList := by
      show (ns ++ "/" ++ name).toList = _
      simp
    rw [parse_of_slash htext hslash]
    simp [hns, hname]
  | none =>
    show parse name = _
    rcases slash_cases name with hslash | ⟨before, after, htext, hslash⟩
    · exact parse_of_not_mem hslash
    · rw [parse_of_slash htext hslash]
      -- the place of the first slash leaves nothing on one of its sides
      have hplace := h before.length (by rw [htext, idxOf?_slash hslash]; rfl)
      have hend : before = [] ∨ after = [] := by
        rw [htext] at hplace
        simpa using hplace
      rw [if_pos hend]

theorem parse_injective : Function.Injective parse := by
  intro text other h
  rw [← toString_parse text, h, toString_parse]

/-- Reading a text and printing the name gives the text, for symbols and, behind a colon, for
keywords, so different texts are different names. Printing a name and reading the text gives the
name exactly if it is readable. -/
theorem reading_inverts_printing :
    (∀ text escape, toString (parse text) = text ∧
      (Atom.symbol (parse text)).render escape = text ∧
      (Atom.keyword (parse text)).render escape = ":" ++ text) ∧
    (∀ text other, (parse text = parse other ↔ text = other) ∧
      ((Atom.symbol (parse text)).equals (.symbol (parse other)) = true ↔ text = other) ∧
      ((Atom.keyword (parse text)).equals (.keyword (parse other)) = true ↔ text = other)) ∧
    ∀ n : Name, parse (toString n) = n ↔ n.Readable := by
  refine ⟨fun text escape => ?_, fun text other => ?_, fun n => ?_⟩
  · simp [Atom.render, toString_parse]
  · simp [Atom.equals, parse_injective.eq_iff]
  · constructor
    · intro h
      rw [← h]
      exact readable_parse _
    · exact parse_toString

example : ¬Readable ⟨some "a/b", "c"⟩ ∧ ¬Readable ⟨none, "a/b"⟩ ∧ Readable ⟨none, "/a/b"⟩ := by
  decide

end LispKernel.Name
