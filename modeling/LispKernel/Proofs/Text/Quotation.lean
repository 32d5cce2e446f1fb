import LispKernel.Render

/-!
# Quoted texts

A string in quotes ends at the first quote that is not escaped, whatever stands behind it, and what
is before that quote can be read back. Both come from what the escaped form of one character is: a
pair that begins with a backslash, or the character itself, which is then neither a backslash nor a
quote.
-/
namespace LispKernel

namespace Text

/-- What the character behind a backslash stands for. -/
def meaning : Char → Char
  | 'n' => '\n'
  | 't' => '\t'
  | 'r' => '\r'
  | c => c

theorem escapeChar_cases (c : Char) :
    (∃ d, escapeChar c = ['\\', d] ∧ meaning d = c ∧ d ∉ ['\n', '\t', '\r']) ∨
    (escapeChar c = [c] ∧ c ∉ ['\n', '\t', '\r', '\\', '"']) := by
  fun_cases escapeChar c
  case case6 => exact .inr ⟨rfl, by simp_all⟩
  all_goals exact .inl ⟨_, rfl, rfl, by decide⟩

theorem escape_cons (c : Char) (text : List Char) :
    escape (c :: text) = escapeChar c ++ escape text := rfl

theorem toList_quote (s : String) : (quote s).toList = '"' :: (escape s.toList ++ ['"']) := by
  simp [quote]

/-! ## Reading up to the quote -/

/-- The text before the first quote that is not escaped, and what stands behind that quote. -/
def untilQuote : List Char → Option (List Char × List Char)
  | '"' :: rest => some ([], rest)
  | '\\' :: c :: rest => (untilQuote rest).map fun (text, rest) => (meaning c :: text, rest)
  | c :: rest => (untilQuote rest).map fun (text, rest) => (c :: text, rest)
  | [] => none

theorem untilQuote_escapeChar (c : Char) (rest : List Char) :
    untilQuote (escapeChar c ++ rest) =
      (untilQuote rest).map fun (text, rest) => (c :: text, rest) := by
  rcases escapeChar_cases c with ⟨d, hc, rfl, -⟩ | ⟨hc, hplain⟩
  · rw [hc]
    rfl
  · simp only [List.mem_cons, not_or] at hplain
    rw [hc, List.singleton_append, untilQuote]
    · exact hplain.2.2.2.2.1
    · exact fun _ _ hbackslash _ => hplain.2.2.2.1 hbackslash

theorem untilQuote_escape (text rest : List Char) :
    untilQuote (escape text ++ '"' :: rest) = some (text, rest) := by
  induction text with
  | nil => rfl
  | cons c text ih =>
    rw [escape_cons, List.append_assoc, untilQuote_escapeChar, ih]
    rfl

/-- A quoted string is told from what follows in one way only. -/
theorem quote_append_eq_iff {s t u v : String} : quote s ++ u = quote t ++ v ↔ s = t ∧ u = v := by
  constructor
  · intro h
    have hchars := congrArg String.toList h
    simp only [String.toList_append, toList_quote, List.cons_append, List.append_assoc,
      List.nil_append, List.cons.injEq, true_and] at hchars
    have hread := congrArg untilQuote hchars
    rw [untilQuote_escape, untilQuote_escape] at hread
    simpa [String.toList_inj] using hread
  · rintro ⟨rfl, rfl⟩
    rfl

/-! ## The characters of a quoted string -/

theorem not_mem_of_mem_escape {d : Char} {text : List Char} (h : d ∈ escape text) :
    d ∉ ['\n', '\t', '\r'] := by
  obtain ⟨c, -, hd⟩ := List.mem_flatMap.1 h
  rcases escapeChar_cases c with ⟨e, hc, -, he⟩ | ⟨hc, hplain⟩
  · rw [hc, List.mem_cons, List.mem_singleton] at hd
    rcases hd with rfl | rfl
    · decide
    · exact he
  · rw [hc, List.mem_singleton] at hd
    simp_all

theorem not_mem_quote {d : Char} (hd : d ∈ ['\n', '\t', '\r']) (s : String) :
    d ∉ (quote s).toList := by
  intro hmem
  have hquote : d ≠ '"' := by
    rintro rfl
    simp at hd
  have hinside : d ∈ escape s.toList := by simpa [toList_quote, hquote] using hmem
  exact not_mem_of_mem_escape hinside hd

/-- The character at a place is escaped if a backslash stands before it that is not escaped. -/
def escapedAt (text : List Char) : Nat → Bool
  | 0 => false
  | i + 1 => text[i]? == some '\\' && !escapedAt text i

section EscapedAt

variable {a b : List Char} {i : Nat}

theorem escapedAt_append_left (b : List Char) (h : i ≤ a.length) :
    escapedAt (a ++ b) i = escapedAt a i := by
  induction i with
  | zero => rfl
  | succ i ih => rw [escapedAt, escapedAt, ih (by omega), List.getElem?_append_left (by omega)]

/-- What is escaped behind a text does not depend on the text, if that leaves no backslash open. -/
theorem escapedAt_append_right (h : escapedAt a a.length = false) (i : Nat) :
    escapedAt (a ++ b) (a.length + i) = escapedAt b i := by
  induction i with
  | zero => rw [Nat.add_zero, escapedAt_append_left b (Nat.le_refl _), h, escapedAt]
  | succ i ih =>
    rw [← Nat.add_assoc, escapedAt, escapedAt, ih, List.getElem?_append_right (by omega),
      Nat.add_sub_cancel_left]

/-- A text that leaves no backslash open and in which every quote is escaped. -/
structure Guarded (text : List Char) : Prop where
  closed : escapedAt text text.length = false
  quotes {i : Nat} : text[i]? = some '"' → escapedAt text i = true

theorem Guarded.append (ha : Guarded a) (hb : Guarded b) : Guarded (a ++ b) where
  closed := by rw [List.length_append, escapedAt_append_right ha.closed, hb.closed]
  quotes {i} h := by
    by_cases hi : i < a.length
    · rw [List.getElem?_append_left hi] at h
      rw [escapedAt_append_left b (by omega), ha.quotes h]
    · obtain ⟨j, rfl⟩ : ∃ j, i = a.length + j := ⟨i - a.length, by omega⟩
      rw [List.getElem?_append_right (by omega), Nat.add_sub_cancel_left] at h
      rw [escapedAt_append_right ha.closed, hb.quotes h]

theorem guarded_escapeChar (c : Char) : Guarded (escapeChar c) := by
  rcases escapeChar_cases c with ⟨d, hc, -⟩ | ⟨hc, hplain⟩ <;> rw [hc]
  · refine ⟨by simp [escapedAt], fun {i} h => ?_⟩
    rcases i with _ | _ | i
    · simp at h
    · simp [escapedAt]
    · simp at h
  · simp only [List.mem_cons, not_or] at hplain
    refine ⟨by simp [escapedAt, hplain], fun {i} h => ?_⟩
    rcases i with _ | i <;> simp [hplain] at h

theorem guarded_escape (text : List Char) : Guarded (escape text) := by
  induction text with
  | nil => exact ⟨rfl, by simp [escape]⟩
  | cons c text ih => exact (guarded_escapeChar c).append ih

end EscapedAt

/-- Behind a guarded text stands the only quote that is not escaped. -/
theorem Guarded.quote_iff {text : List Char} (h : Guarded text) (i : Nat) :
    ((text ++ ['"'])[i]? = some '"' ∧ escapedAt (text ++ ['"']) i = false) ↔ i = text.length := by
  rcases Nat.lt_trichotomy i text.length with hi | rfl | hi
  · rw [List.getElem?_append_left hi, escapedAt_append_left _ (by omega)]
    constructor
    · rintro ⟨hquote, hopen⟩
      rw [h.quotes hquote] at hopen
      cases hopen
    · omega
  · simp [escapedAt_append_left _ (Nat.le_refl text.length), h.closed]
  · have hbeyond : (text ++ ['"'])[i]? = none := by
      apply List.getElem?_eq_none
      rw [List.length_append, List.length_singleton]
      omega
    rw [hbeyond]
    constructor
    · rintro ⟨hquote, -⟩
      cases hquote
    · omega

theorem quote_quotes_iff (s : String) (i : Nat) :
    ((quote s).toList[i]? = some '"' ∧ escapedAt (quote s).toList i = false) ↔
      i = 0 ∨ i + 1 = (quote s).length := by
  rw [← String.length_toList, toList_quote]
  cases i with
  | zero => simp [escapedAt]
  | succ i =>
    -- the opening quote leaves no backslash open
    have hopening : escapedAt ('"' :: (escape s.toList ++ ['"'])) (i + 1) =
        escapedAt (escape s.toList ++ ['"']) i := by
      rw [Nat.add_comm]
      exact escapedAt_append_right (a := ['"']) rfl i
    rw [hopening, List.getElem?_cons_succ, (guarded_escape s.toList).quote_iff]
    simp

end Text

namespace Value

open Text (escapedAt)

/-- Strings are rendered whatever the world is. If what is written for two strings is followed by
further text and the whole is the same, then so are the strings and what follows. The text has no
line break, tab or carriage return of its own, and the quotes that are not escaped are its first and
its last character. -/
theorem escaped_string_delimits_itself (force : Force) (s t : String) :
    ∃ a b : String,
      (∀ n w, (string s).render force true (n + 1) w = some (.ok a, w)) ∧
      (∀ n w, (string t).render force true (n + 1) w = some (.ok b, w)) ∧
      (∀ u v, a ++ u = b ++ v ↔ s = t ∧ u = v) ∧ (a = b ↔ s = t) ∧
      ('\n' ∉ a.toList ∧ '\t' ∉ a.toList ∧ '\r' ∉ a.toList) ∧ 1 < a.length ∧
      ∀ i, (a.toList[i]? = some '"' ∧ escapedAt a.toList i = false) ↔
        i = 0 ∨ i + 1 = a.length := by
  refine ⟨Text.quote s, Text.quote t, fun _ _ => rfl, fun _ _ => rfl,
    fun u v => Text.quote_append_eq_iff, ?_, ?_, ?_, Text.quote_quotes_iff s⟩
  · have hcut := Text.quote_append_eq_iff (s := s) (t := t) (u := "") (v := "")
    simpa using hcut
  · exact ⟨Text.not_mem_quote (by simp) s, Text.not_mem_quote (by simp) s,
      Text.not_mem_quote (by simp) s⟩
  · rw [← String.length_toList, Text.toList_quote]
    simp

/-- A backslash before a letter is not a line break, and a backslash at the end does not escape the
closing quote. -/
example : Text.quote "\\n" = "\"\\\\n\"" ∧ Text.quote "\n" = "\"\\n\"" ∧
    Text.quote "\\" = "\"\\\\\"" := by
  decide

end Value

end LispKernel
