import Mathlib.Algebra.Ring.Nat
import LispKernel.Native.Encoding
import LispKernel.Proofs.Encoding.Base64
import LispKernel.Proofs.Encoding.Utf8

/-!
# The base64 format

The format in terms of bits: the bits of the bytes, filled up with zeros, are cut into sixes, each
six is a letter, and padding fills up the last four letters. The native procedures go from texts to
forms and back, and every text that is no form is malformed.
-/
namespace LispKernel

namespace Base64

/-! ## Bits -/

/-- The last bits of a number, the highest first. -/
def bits : Nat → Nat → List Bool
  | 0, _ => []
  | width + 1, n => bits width (n / 2) ++ [decide (n % 2 = 1)]

@[simp] theorem length_bits (width n : Nat) : (bits width n).length = width := by
  induction width generalizing n with
  | zero => rfl
  | succ width ih => simp [bits, ih]

theorem bits_add (k width n : Nat) :
    bits (k + width) n = bits k (n / 2 ^ width) ++ bits width n := by
  induction width generalizing n with
  | zero => simp [bits]
  | succ width ih =>
    rw [← Nat.add_assoc, bits, ih, bits, Nat.div_div_eq_div_mul, ← Nat.pow_succ', List.append_assoc]

theorem bits_congr {width m n : Nat} (h : m % 2 ^ width = n % 2 ^ width) :
    bits width m = bits width n := by
  induction width generalizing m n with
  | zero => rfl
  | succ width ih =>
    rw [Nat.pow_succ', Nat.mod_mul, Nat.mod_mul] at h
    rw [bits, bits, ih (m := m / 2) (n := n / 2) (by omega), show m % 2 = n % 2 by omega]

theorem bits_zero (width : Nat) : bits width 0 = List.replicate width false := by
  induction width with
  | zero => rfl
  | succ width ih => simp [bits, ih, List.replicate_succ']

theorem bits_injective {width m n : Nat} (hm : m < 2 ^ width) (hn : n < 2 ^ width)
    (h : bits width m = bits width n) : m = n := by
  induction width generalizing m n with
  | zero => omega
  | succ width ih =>
    obtain ⟨hhigh, hlow⟩ := List.append_inj h (by simp)
    have hdiv := ih (by omega) (by omega) hhigh
    simp only [List.cons.injEq, and_true, decide_eq_decide] at hlow
    omega

/-- Bits of two numbers in one. -/
theorem bits_join (k width m n : Nat) (hn : n < 2 ^ width) :
    bits (k + width) (m % 2 ^ k * 2 ^ width + n) = bits k m ++ bits width n := by
  have hdiv : (m % 2 ^ k * 2 ^ width + n) / 2 ^ width = m % 2 ^ k := by
    rw [Nat.mul_comm, Nat.mul_add_div (Nat.two_pow_pos width), Nat.div_eq_of_lt hn, Nat.add_zero]
  have hmod : (m % 2 ^ k * 2 ^ width + n) % 2 ^ width = n % 2 ^ width := by
    rw [Nat.mul_add_mod_self_right]
  rw [bits_add, hdiv, bits_congr hmod, bits_congr (Nat.mod_mod m (2 ^ k))]

/-! ## Forms -/

def alphabet : String := "ABCDEFGHIJKLMNOPQRSTUVWXYZabcdefghijklmnopqrstuvwxyz0123456789+/"

/-- The letter of six bits. -/
def letter (digit : Fin 64) : Char := alphabet.toList.get (digit.cast rfl)

/-- The text is the form of the bytes. -/
inductive Form (bytes : List UInt8) : List Char → Prop where
  | of_digits (digits : List (Fin 64)) (zeros paddings : Nat)
      (cut : digits.flatMap (fun d => bits 6 d.val) =
        bytes.flatMap (fun b => bits 8 b.toNat) ++ List.replicate zeros false)
      (filled : zeros < 6) (padded : (digits.length + paddings) % 4 = 0) (short : paddings < 4) :
      Form bytes (digits.map letter ++ List.replicate paddings '=')

theorem length_flatMap_bits {α : Type} (width : Nat) (f : α → Nat) (xs : List α) :
    (xs.flatMap fun x => bits width (f x)).length = width * xs.length := by
  induction xs with
  | nil => rfl
  | cons x xs ih =>
    rw [List.flatMap_cons, List.length_append, length_bits, ih, List.length_cons, Nat.mul_succ,
      Nat.add_comm]

theorem digits_injective {ds ds' : List (Fin 64)} (hlength : ds.length = ds'.length)
    (h : (ds.flatMap fun d => bits 6 d.val) = ds'.flatMap fun d => bits 6 d.val) : ds = ds' := by
  induction ds generalizing ds' with
  | nil => exact (List.length_eq_zero_iff.1 hlength.symm).symm
  | cons d ds ih =>
    cases ds' with
    | nil => cases hlength
    | cons d' ds' =>
      obtain ⟨hd, hds⟩ := List.append_inj h (by simp)
      rw [Fin.ext (bits_injective d.isLt d'.isLt hd), ih (Nat.succ.inj hlength) hds]

/-- Bytes have at most one form. -/
theorem Form.unique {bytes : List UInt8} {text text' : List Char} (h : Form bytes text)
    (h' : Form bytes text') : text = text' := by
  obtain ⟨ds, zeros, paddings, hcut, hfilled, hpadded, hshort⟩ := h
  obtain ⟨ds', zeros', paddings', hcut', hfilled', hpadded', hshort'⟩ := h'
  -- Fewer than six bits are filled up, so the number of digits is that of the bytes' sixes.
  have hlength := congrArg List.length hcut
  have hlength' := congrArg List.length hcut'
  simp only [List.length_append, length_flatMap_bits, List.length_replicate] at hlength hlength'
  obtain rfl : zeros = zeros' := by omega
  obtain rfl : ds = ds' := digits_injective (by omega) (hcut.trans hcut'.symm)
  obtain rfl : paddings = paddings' := by omega
  rfl

def toChars (text : List UInt8) : List Char := text.map fun b => Char.ofNat b.toNat

theorem letter_eq (d : Fin 64) : letter d = Char.ofNat (symbol d).toNat := by
  have hall : ∀ d : Fin 64, letter d = Char.ofNat (symbol d).toNat := by decide +kernel
  exact hall d

/-- Encoding gives the form: its digits cut the bytes after six, four and two bits. -/
theorem form_encode (bytes : List UInt8) : Form bytes (toChars (encode bytes)) := by
  have hsecond (m n : Nat) (hn : n < 16) : bits 6 (m % 4 * 16 + n) = bits 2 m ++ bits 4 n :=
    bits_join 2 4 m n hn
  have hthird (m n : Nat) (hn : n < 4) : bits 6 (m % 16 * 4 + n) = bits 4 m ++ bits 2 n :=
    bits_join 4 2 m n hn
  have hfirst (n : Nat) : bits 8 n = bits 6 (n / 4) ++ bits 2 n := bits_add 6 2 n
  have hmiddle (n : Nat) : bits 8 n = bits 4 (n / 16) ++ bits 4 n := bits_add 4 4 n
  have hlast (n : Nat) : bits 8 n = bits 2 (n / 64) ++ bits 6 n := bits_add 2 6 n
  have hpad : Char.ofNat pad.toNat = '=' := rfl
  have hfourth (n : Nat) : bits 6 (n % 64) = bits 6 n := bits_congr (Nat.mod_mod n 64)
  induction bytes using encode.induct with
  | case1 a b c rest ih =>
    have ha := a.toNat_lt
    have hb := b.toNat_lt
    have hc := c.toNat_lt
    generalize hrest : toChars (encode rest) = text at ih
    obtain ⟨ds, zeros, paddings, hcut, hfilled, hpadded, hshort⟩ := ih
    have hform : Form (a :: b :: c :: rest) _ := .of_digits
      (⟨a.toNat / 4, by omega⟩ :: ⟨a.toNat % 4 * 16 + b.toNat / 16, by omega⟩ ::
        ⟨b.toNat % 16 * 4 + c.toNat / 64, by omega⟩ :: ⟨c.toNat % 64, by omega⟩ :: ds)
      zeros paddings ?_ hfilled (by simp only [List.length_cons]; omega) hshort
    · simpa [encode, toChars, letter_eq, ← hrest] using hform
    · simp only [List.flatMap_cons]
      rw [hcut, hsecond _ _ (by omega), hthird _ _ (by omega), hfourth, hfirst a.toNat,
        hmiddle b.toNat, hlast c.toNat]
      simp only [List.append_assoc]
  | case2 a b =>
    have ha := a.toNat_lt
    have hb := b.toNat_lt
    have hform : Form [a, b] _ := .of_digits
      [⟨a.toNat / 4, by omega⟩, ⟨a.toNat % 4 * 16 + b.toNat / 16, by omega⟩,
        ⟨b.toNat % 16 * 4 + 0, by omega⟩] 2 1 ?_ (by decide) (by simp) (by decide)
    · simpa [encode, toChars, letter_eq, hpad] using hform
    · simp only [List.flatMap_cons]
      rw [hsecond _ _ (by omega), hthird _ _ (by omega), hfirst a.toNat, hmiddle b.toNat, bits_zero]
      simp only [List.append_assoc]
      rfl
  | case3 a =>
    have ha := a.toNat_lt
    have hform : Form [a] _ := .of_digits
      [⟨a.toNat / 4, by omega⟩, ⟨a.toNat % 4 * 16 + 0, by omega⟩] 4 2 ?_ (by decide) (by simp)
      (by decide)
    · simpa [encode, toChars, letter_eq, hpad] using hform
    · simp only [List.flatMap_cons]
      rw [hsecond _ _ (by omega), hfirst a.toNat, bits_zero]
      simp only [List.append_assoc]
      rfl
  | case4 => exact .of_digits [] 0 0 rfl (by decide) rfl (by decide)

theorem form_iff {bytes : List UInt8} {text : List Char} :
    Form bytes text ↔ text = toChars (encode bytes) := by
  constructor
  · intro h
    exact h.unique (form_encode bytes)
  · rintro rfl
    exact form_encode bytes

/-! ## Texts -/

theorem encode_lt (bytes : List UInt8) : ∀ b ∈ encode bytes, b.toNat < 128 := by
  by_cases hbytes : bytes = []
  · subst hbytes
    simp [encode]
  · obtain ⟨body, t, ht, rfl⟩ := exists_grouped hbytes
    rw [encode_ofDigits ht, Tail.text, ← List.append_assoc, ← List.map_append]
    refine List.forall_mem_append.2 ⟨?_, fun b hb => ?_⟩
    · exact List.forall_mem_map.2 fun d hd => symbol_lt (ht.digits_lt d hd)
    · rw [List.eq_of_mem_replicate hb]
      decide

/-! ## Engines -/

/-- The engine keeps to the standard alphabet and to canonical padding. -/
structure Engine.Conforms (engine : Engine) : Prop where
  /-- Bytes are written in their form. -/
  encode_form (bytes : List UInt8) : Form bytes (engine.encode bytes).toList
  /-- Every form is read. -/
  decode_form {bytes : List UInt8} {text : String} :
    Form bytes text.toList → engine.decode text.toUTF8.data.toList = .ok bytes
  /-- Nothing else is read: no letter outside the alphabet, no missing, extra or misplaced padding
  and no bits behind the end. -/
  form_of_decode {bytes : List UInt8} {text : String} :
    engine.decode text.toUTF8.data.toList = .ok bytes → Form bytes text.toList

/-- What is read as bytes is what the bytes are written as. -/
theorem decode_utf8_eq_ok_iff {bytes : List UInt8} {text : String} :
    decode text.toUTF8.data.toList = .ok bytes ↔ Form bytes text.toList := by
  have hascii : Utf8.encode (toChars (encode bytes)) = encode bytes :=
    Utf8.encode_map_ascii (encode_lt bytes)
  rw [← Utf8.encode_toList, decode_eq_ok_iff, form_iff]
  constructor
  · intro h
    exact Utf8.encode_injective (h.trans hascii.symm)
  · intro h
    rw [h, hascii]

theorem mapError_eq_ok_iff {α ε ε' : Type} {f : ε → ε'} {r : Except ε α} {a : α} :
    r.mapError f = .ok a ↔ r = .ok a := by
  cases r <;> simp [Except.mapError]

theorem standard_conforms : standard.Conforms where
  encode_form bytes := by
    rw [standard, String.toList_ofList]
    exact form_encode bytes
  decode_form h := mapError_eq_ok_iff.2 (decode_utf8_eq_ok_iff.2 h)
  form_of_decode h := decode_utf8_eq_ok_iff.1 (mapError_eq_ok_iff.1 h)

namespace Engine.Conforms

variable {engine : Engine} (h : engine.Conforms) {s t : String}

include h

theorem encodeText_eq_iff :
    engine.encodeText s = t ↔ Form s.toUTF8.data.toList t.toList := by
  have hform := h.encode_form s.toUTF8.data.toList
  rw [encodeText, Utf8.encode_toList]
  constructor
  · rintro rfl
    exact hform
  · intro ht
    exact String.toList_inj.1 (hform.unique ht)

theorem decodeText_eq_ok_iff :
    engine.decodeText t = .ok s ↔ Form s.toUTF8.data.toList t.toList := by
  have hstages : engine.decodeText t = .ok s ↔
      engine.decode t.toUTF8.data.toList = .ok s.toUTF8.data.toList := by
    rw [← Utf8.encode_toList, ← Utf8.encode_toList]
    constructor
    · intro h
      unfold decodeText at h
      split at h
      · cases h
      next bytes hbytes =>
      split at h
      · cases h
      next chars hchars =>
      cases h
      rw [hbytes, String.toList_ofList, Utf8.decode_eq_ok_iff.1 hchars]
    · intro h
      simp [decodeText, h, Utf8.decode_eq_ok_iff.2 rfl]
  exact hstages.trans ⟨h.form_of_decode, h.decode_form⟩

end Engine.Conforms

end Base64

/-! ## Procedures -/

namespace Encoding

open Base64 (Form Engine)

variable {engine : Engine} {s t : String}

theorem encodeString_text (engine : Engine) (s : String) :
    encodeString engine [.string s] = .done (.ok (.string (engine.encodeText s))) := rfl

theorem decodeString_text (engine : Engine) (t : String) :
    decodeString engine [.string t] = match engine.decodeText t with
      | .ok s => .done (.ok (.string s))
      | .error reason => .done (.error (.malformedInput ("Invalid base64 string: " ++ reason))) :=
  rfl

theorem decodeString_eq_done_iff (h : engine.Conforms) :
    decodeString engine [.string t] = .done (.ok (.string s)) ↔
      Form s.toUTF8.data.toList t.toList := by
  rw [decodeString_text, ← h.decodeText_eq_ok_iff]
  split <;> simp_all

theorem encodeString_eq_done_iff (h : engine.Conforms) :
    encodeString engine [.string s] = .done (.ok (.string t)) ↔
      Form s.toUTF8.data.toList t.toList := by
  rw [encodeString_text, ← h.encodeText_eq_iff]
  simp

/-- Over any engine that keeps to the standard, encoding gives the form of a text, decoding accepts
exactly the forms of texts and undoes encoding, and every other string is malformed. -/
theorem encoding_inverse {engine : Engine} (h : engine.Conforms) (s t : String) :
    (∃ e, encodeString engine [.string s] = .done (.ok (.string e)) ∧
      decodeString engine [.string e] = .done (.ok (.string s))) ∧
    (decodeString engine [.string t] = .done (.ok (.string s)) ↔
      encodeString engine [.string s] = .done (.ok (.string t))) ∧
    (encodeString engine [.string s] = .done (.ok (.string t)) ↔
      Form s.toUTF8.data.toList t.toList) ∧
    ((∃ reason, decodeString engine [.string t] = .done (.error (.malformedInput reason))) ↔
      ¬∃ text : String, Form text.toUTF8.data.toList t.toList) := by
  refine ⟨?_, ?_, encodeString_eq_done_iff h, ?_⟩
  · have hform := h.encodeText_eq_iff.1 (rfl : engine.encodeText s = engine.encodeText s)
    exact ⟨_, encodeString_text engine s, (decodeString_eq_done_iff h).2 hform⟩
  · rw [decodeString_eq_done_iff h, encodeString_eq_done_iff h]
  · constructor
    · rintro ⟨reason, hreason⟩ ⟨text, htext⟩
      rw [(decodeString_eq_done_iff h).2 htext] at hreason
      cases hreason
    · intro hno
      rw [decodeString_text]
      split
      next text htext => exact absurd ⟨text, h.decodeText_eq_ok_iff.1 htext⟩ hno
      next reason hreason => exact ⟨_, rfl⟩

/-- The engine that the procedures are registered with: a text of two bytes, and a text with bits
behind the end. -/
theorem encoding_inverse_standard :
    Base64.standard.Conforms ∧
    decodeString Base64.standard [.string "w6k="] = .done (.ok (.string "é")) ∧
    ∃ reason,
      decodeString Base64.standard [.string "w6l="] = .done (.error (.malformedInput reason)) := by
  have hform : Form "é".toUTF8.data.toList "w6k=".toList :=
    .of_digits [48, 58, 36] 2 1 (by decide) (by decide) (by decide) (by decide)
  obtain ⟨-, hread, hwritten, -⟩ := encoding_inverse Base64.standard_conforms "é" "w6k="
  obtain ⟨-, -, -, hmalformed⟩ := encoding_inverse Base64.standard_conforms "é" "w6l="
  refine ⟨Base64.standard_conforms, hread.2 (hwritten.2 hform), hmalformed.2 ?_⟩
  rintro ⟨text, htext⟩
  have hfault : Base64.decode "w6l=".toUTF8.data.toList = .error (.invalidLastSymbol 108 2) := rfl
  cases hfault.symm.trans (Base64.decode_utf8_eq_ok_iff.2 htext)

end Encoding

end LispKernel
