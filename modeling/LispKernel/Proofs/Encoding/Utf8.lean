import LispKernel.Utf8
import Mathlib.Tactic.SplitIfs

/-!
# Reading and writing UTF-8

Reading bytes as text accepts exactly the bytes that some text is written as, and gives that text
back. The bytes of a text are those that the text itself is made of.
-/
namespace LispKernel.Utf8

variable {a b c d : UInt8} {index : Nat} {bytes rest : List UInt8} {text : List Char}

/-! ## Characters of one to four bytes -/

theorem isContinuation_iff : isContinuation b = true ↔ 128 ≤ b.toNat ∧ b.toNat ≤ 191 := by
  simp [isContinuation, UInt8.le_iff_toNat_le]

theorem isSecond_iff : isSecond a b = true ↔
    (128 ≤ b.toNat ∧ b.toNat ≤ 191) ∧ (a.toNat = 224 → 160 ≤ b.toNat) ∧
      (a.toNat = 237 → b.toNat ≤ 159) ∧ (a.toNat = 240 → 144 ≤ b.toNat) ∧
      (a.toNat = 244 → b.toNat ≤ 143) := by
  simp only [isSecond, isContinuation, beq_iff_eq, ← UInt8.toNat_inj, UInt8.le_iff_toNat_le,
    UInt8.reduceToNat]
  split_ifs <;> simp only [Bool.and_eq_true, decide_eq_true_iff] <;> omega

theorem toNat_charOfNat {n : Nat} (h : n.isValidChar) : (Char.ofNat n).toNat = n := by
  rw [Char.ofNat, dif_pos h]
  rfl

theorem ofNat_eq_of_toNat {n : Nat} (h : n = b.toNat) : UInt8.ofNat n = b := by
  rw [h, UInt8.ofNat_toNat]

theorem encodeChar_ascii (ha : a.toNat < 128) :
    String.utf8EncodeChar (Char.ofNat a.toNat) = [a] := by
  have hval : (Char.ofNat a.toNat).val.toNat = a.toNat := toNat_charOfNat (.inl (by omega))
  rw [String.utf8EncodeChar, hval, if_pos (by omega), UInt8.ofNat_toNat]

theorem encodeChar_char₂ (ha : 194 ≤ a.toNat) (ha' : a.toNat < 224) (hb : isSecond a b = true) :
    String.utf8EncodeChar (char₂ a b) = [a, b] := by
  have hb := isSecond_iff.1 hb
  have hval : (char₂ a b).val.toNat = a.toNat % 32 * 64 + b.toNat % 64 :=
    toNat_charOfNat (.inl (by unfold payload; omega))
  rw [String.utf8EncodeChar, hval, if_neg (by omega), if_pos (by omega),
    ofNat_eq_of_toNat (b := a) (by omega), ofNat_eq_of_toNat (b := b) (by omega)]

-- Here the second byte keeps clear of the surrogates, in the next lemma of numbers too big.
theorem encodeChar_char₃ (ha : 224 ≤ a.toNat) (ha' : a.toNat < 240) (hb : isSecond a b = true)
    (hc : isContinuation c = true) : String.utf8EncodeChar (char₃ a b c) = [a, b, c] := by
  have hb := isSecond_iff.1 hb
  have hc := isContinuation_iff.1 hc
  have hval : (char₃ a b c).val.toNat = (a.toNat % 16 * 64 + b.toNat % 64) * 64 + c.toNat % 64 :=
    toNat_charOfNat (by unfold payload Nat.isValidChar; omega)
  rw [String.utf8EncodeChar, hval, if_neg (by omega), if_neg (by omega), if_pos (by omega),
    ofNat_eq_of_toNat (b := a) (by omega), ofNat_eq_of_toNat (b := b) (by omega),
    ofNat_eq_of_toNat (b := c) (by omega)]

theorem encodeChar_char₄ (ha : 240 ≤ a.toNat) (ha' : a.toNat ≤ 244) (hb : isSecond a b = true)
    (hc : isContinuation c = true) (hd : isContinuation d = true) :
    String.utf8EncodeChar (char₄ a b c d) = [a, b, c, d] := by
  have hb := isSecond_iff.1 hb
  have hc := isContinuation_iff.1 hc
  have hd := isContinuation_iff.1 hd
  have hval : (char₄ a b c d).val.toNat =
      ((a.toNat % 8 * 64 + b.toNat % 64) * 64 + c.toNat % 64) * 64 + d.toNat % 64 :=
    toNat_charOfNat (by unfold payload Nat.isValidChar; omega)
  rw [String.utf8EncodeChar, hval, if_neg (by omega), if_neg (by omega), if_neg (by omega),
    ofNat_eq_of_toNat (b := a) (by omega), ofNat_eq_of_toNat (b := b) (by omega),
    ofNat_eq_of_toNat (b := c) (by omega), ofNat_eq_of_toNat (b := d) (by omega)]

/-! ## Reading -/

theorem map_eq_ok {ε α β : Type} {f : α → β} {r : Except ε α} {y : β} :
    r.map f = .ok y ↔ ∃ x, r = .ok x ∧ f x = y := by
  cases r <;> simp [Except.map]

theorem encode_cons (x : Char) (text : List Char) :
    encode (x :: text) = String.utf8EncodeChar x ++ encode text := List.flatMap_cons

/-- Bytes that are read as a text are the bytes of the text. -/
theorem encode_of_decodeFrom (h : decodeFrom index bytes = .ok text) : encode text = bytes := by
  fun_induction decodeFrom index bytes generalizing text with
  | case1 =>
    cases h
    rfl
  | case2 index a rest ha ih =>
    obtain ⟨text, hrest, rfl⟩ := map_eq_ok.1 h
    rw [encode_cons, ih hrest, encodeChar_ascii (UInt8.lt_iff_toNat_lt.1 ha)]
    rfl
  | case6 index a _ hlead b rest hb ha ih =>
    obtain ⟨text, hrest, rfl⟩ := map_eq_ok.1 h
    simp only [UInt8.lt_iff_toNat_lt, UInt8.reduceToNat, Bool.or_eq_true, decide_eq_true_iff,
      Bool.not_eq_true', Bool.not_eq_false] at hlead hb ha
    rw [encode_cons, ih hrest, encodeChar_char₂ (by omega) ha hb]
    rfl
  | case9 index a _ hlead b hb ha c rest hc ha' ih =>
    obtain ⟨text, hrest, rfl⟩ := map_eq_ok.1 h
    simp only [UInt8.lt_iff_toNat_lt, UInt8.reduceToNat, Bool.not_eq_true',
      Bool.not_eq_false] at hb ha hc ha'
    rw [encode_cons, ih hrest, encodeChar_char₃ (by omega) ha' hb hc]
    rfl
  | case12 index a _ hlead b hb ha c hc ha' d rest hd ih =>
    obtain ⟨text, hrest, rfl⟩ := map_eq_ok.1 h
    simp only [UInt8.lt_iff_toNat_lt, UInt8.reduceToNat, Bool.or_eq_true, decide_eq_true_iff,
      Bool.not_eq_true', Bool.not_eq_false] at hlead hb hc ha' hd
    rw [encode_cons, ih hrest, encodeChar_char₄ (by omega) (by omega) hb hc hd]
    rfl
  | _ => cases h

theorem decodeFrom_ascii (ha : a.toNat < 128) :
    decodeFrom index (a :: rest) =
      (decodeFrom (index + 1) rest).map (Char.ofNat a.toNat :: ·) := by
  rw [decodeFrom.eq_def]
  simp [UInt8.lt_iff_toNat_lt, ha]

theorem decodeFrom_char₂ (ha : 194 ≤ a.toNat) (ha' : a.toNat < 224) (hb : isSecond a b = true) :
    decodeFrom index (a :: b :: rest) = (decodeFrom (index + 2) rest).map (char₂ a b :: ·) := by
  rw [decodeFrom.eq_def]
  simp [UInt8.lt_iff_toNat_lt, hb, show ¬a.toNat < 128 by omega,
    show ¬a.toNat < 194 by omega, show ¬244 < a.toNat by omega, ha']

theorem decodeFrom_char₃ (ha : 224 ≤ a.toNat) (ha' : a.toNat < 240) (hb : isSecond a b = true)
    (hc : isContinuation c = true) :
    decodeFrom index (a :: b :: c :: rest) =
      (decodeFrom (index + 3) rest).map (char₃ a b c :: ·) := by
  rw [decodeFrom.eq_def]
  simp [UInt8.lt_iff_toNat_lt, hb, hc, show ¬a.toNat < 128 by omega,
    show ¬a.toNat < 194 by omega, show ¬244 < a.toNat by omega, show ¬a.toNat < 224 by omega, ha']

theorem decodeFrom_char₄ (ha : 240 ≤ a.toNat) (ha' : a.toNat ≤ 244) (hb : isSecond a b = true)
    (hc : isContinuation c = true) (hd : isContinuation d = true) :
    decodeFrom index (a :: b :: c :: d :: rest) =
      (decodeFrom (index + 4) rest).map (char₄ a b c d :: ·) := by
  rw [decodeFrom.eq_def]
  simp [UInt8.lt_iff_toNat_lt, hb, hc, hd, show ¬a.toNat < 128 by omega,
    show ¬a.toNat < 194 by omega, show ¬244 < a.toNat by omega, show ¬a.toNat < 224 by omega,
    show ¬a.toNat < 240 by omega]

/-- The bytes of a character are read as this character. -/
theorem decodeFrom_encodeChar (index : Nat) (x : Char) (rest : List UInt8) :
    ∃ k, decodeFrom index (String.utf8EncodeChar x ++ rest) =
      (decodeFrom k rest).map (x :: ·) := by
  have hvalid : x.val.toNat.isValidChar := x.valid
  have hchar {n : Nat} (h : n = x.val.toNat) : Char.ofNat n = x := h ▸ Char.ofNat_toNat x
  have hbyte {n : Nat} (h : n < 256) : ∃ b : UInt8, UInt8.ofNat n = b ∧ b.toNat = n :=
    ⟨_, rfl, by simp [Nat.mod_eq_of_lt h]⟩
  unfold Nat.isValidChar at hvalid
  rw [String.utf8EncodeChar]
  generalize x.val.toNat = n at hvalid hchar
  split_ifs with h₁ h₂ h₃
  · obtain ⟨a, hn, ha⟩ := hbyte (n := n) (by omega)
    refine ⟨index + 1, ?_⟩
    rw [hn, ← hchar ha]
    exact decodeFrom_ascii (by omega)
  · obtain ⟨a, hn, ha⟩ := hbyte (n := n / 64 % 32 + 192) (by omega)
    obtain ⟨b, hnb, hb⟩ := hbyte (n := n % 64 + 128) (by omega)
    refine ⟨index + 2, ?_⟩
    have hx : char₂ a b = x := hchar (by unfold payload; omega)
    rw [hn, hnb, ← hx]
    exact decodeFrom_char₂ (by omega) (by omega) (isSecond_iff.2 (by omega))
  · obtain ⟨a, hn, ha⟩ := hbyte (n := n / 4096 % 16 + 224) (by omega)
    obtain ⟨b, hnb, hb⟩ := hbyte (n := n / 64 % 64 + 128) (by omega)
    obtain ⟨c, hnc, hc⟩ := hbyte (n := n % 64 + 128) (by omega)
    refine ⟨index + 3, ?_⟩
    have hx : char₃ a b c = x := hchar (by unfold payload; omega)
    rw [hn, hnb, hnc, ← hx]
    exact decodeFrom_char₃ (by omega) (by omega) (isSecond_iff.2 (by omega))
      (isContinuation_iff.2 (by omega))
  · obtain ⟨a, hn, ha⟩ := hbyte (n := n / 262144 % 8 + 240) (by omega)
    obtain ⟨b, hnb, hb⟩ := hbyte (n := n / 4096 % 64 + 128) (by omega)
    obtain ⟨c, hnc, hc⟩ := hbyte (n := n / 64 % 64 + 128) (by omega)
    obtain ⟨d, hnd, hd⟩ := hbyte (n := n % 64 + 128) (by omega)
    refine ⟨index + 4, ?_⟩
    have hx : char₄ a b c d = x := hchar (by unfold payload; omega)
    rw [hn, hnb, hnc, hnd, ← hx]
    exact decodeFrom_char₄ (by omega) (by omega) (isSecond_iff.2 (by omega))
      (isContinuation_iff.2 (by omega)) (isContinuation_iff.2 (by omega))

theorem decodeFrom_encode (index : Nat) (text : List Char) :
    decodeFrom index (encode text) = .ok text := by
  induction text generalizing index with
  | nil => rfl
  | cons x text ih =>
    obtain ⟨k, hk⟩ := decodeFrom_encodeChar index x (encode text)
    rw [encode_cons, hk, ih]
    rfl

theorem decode_eq_ok_iff : decode bytes = .ok text ↔ bytes = encode text := by
  constructor
  · intro h
    exact (encode_of_decodeFrom h).symm
  · rintro rfl
    exact decodeFrom_encode 0 text

/-- Different texts are written differently. -/
theorem encode_injective : Function.Injective encode := by
  intro text text' h
  have hdecode : decode (encode text) = .ok text' := decode_eq_ok_iff.2 h
  rw [decode_eq_ok_iff.2 rfl] at hdecode
  exact Except.ok.inj hdecode

theorem encode_toList (text : String) : encode text.toList = text.toUTF8.data.toList := by
  rw [String.toUTF8_eq_toByteArray]
  conv => rhs; rw [← String.ofList_toList (s := text), String.toByteArray_ofList]
  rw [List.utf8Encode, List.data_toByteArray]
  rfl

/-- A text of single bytes is written as these bytes. -/
theorem encode_map_ascii (h : ∀ b ∈ bytes, b.toNat < 128) :
    encode (bytes.map fun b => Char.ofNat b.toNat) = bytes := by
  induction bytes with
  | nil => rfl
  | cons b bytes ih =>
    rw [List.map_cons, encode_cons, encodeChar_ascii (h b (by simp)),
      ih fun x hx => h x (by simp [hx])]
    rfl

end LispKernel.Utf8
