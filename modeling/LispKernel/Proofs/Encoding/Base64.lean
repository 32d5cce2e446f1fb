import LispKernel.Base64
import Mathlib.Tactic.SplitIfs

/-!
# Reading what was written

Decoding accepts exactly the texts that encoding makes. Both are compared with the layout of a
text: whole groups of digits, then a last group in which padding takes the place of missing digits
and no bit is lost.
-/
namespace LispKernel.Base64

/-! ## Symbols -/

theorem digit?_symbol {d : Nat} (h : d < 64) : digit? (symbol d) = some d := by
  have hall : ∀ e : Fin 64, digit? (symbol e) = some e.val := by decide
  exact hall ⟨d, h⟩

theorem symbol_ne_pad {d : Nat} (h : d < 64) : symbol d ≠ pad := by
  have hall : ∀ e : Fin 64, symbol e ≠ pad := by decide
  exact hall ⟨d, h⟩

theorem symbol_lt {d : Nat} (h : d < 64) : (symbol d).toNat < 128 := by
  have hall : ∀ e : Fin 64, (symbol e).toNat < 128 := by decide
  exact hall ⟨d, h⟩

/-- The digit of a symbol stands for no other symbol. -/
theorem symbol_of_digit? {b : UInt8} {d : Nat} (h : digit? b = some d) :
    d < 64 ∧ symbol d = b := by
  unfold digit? at h
  simp only [Bool.and_eq_true, decide_eq_true_iff, UInt8.le_iff_toNat_le, UInt8.reduceToNat,
    beq_iff_eq] at h
  split_ifs at h with h₁ h₂ h₃ h₄ h₅ <;> cases h <;> refine ⟨by omega, ?_⟩
  · rw [symbol, if_pos (by omega), show 65 + (b.toNat - 65) = b.toNat by omega, UInt8.ofNat_toNat]
  · rw [symbol, if_neg (by omega), if_pos (by omega),
      show 97 + (b.toNat - 97 + 26 - 26) = b.toNat by omega, UInt8.ofNat_toNat]
  · rw [symbol, if_neg (by omega), if_neg (by omega), if_pos (by omega),
      show 48 + (b.toNat - 48 + 52 - 52) = b.toNat by omega, UInt8.ofNat_toNat]
  · rw [h₄]
    rfl
  · rw [h₅]
    rfl

/-! ## Parts of a text -/

theorem digits_eq_ok_iff {offset : Nat} {text : List UInt8} {ds : List Nat} :
    digits offset text = .ok ds ↔ (∀ d ∈ ds, d < 64) ∧ text = ds.map symbol := by
  induction text generalizing offset ds with
  | nil =>
    constructor
    · rintro ⟨⟩
      simp
    · rintro ⟨-, h⟩
      rw [List.map_eq_nil_iff.1 h.symm, digits]
  | cons b text ih =>
    rw [digits]
    constructor
    · intro h
      cases hd : digit? b with
      | none => simp [hd] at h
      | some d =>
        obtain ⟨hlt, hsymbol⟩ := symbol_of_digit? hd
        cases hrest : digits (offset + 1) text with
        | error fault => simp [hd, hrest, Except.map] at h
        | ok rest =>
          obtain ⟨hall, htext⟩ := ih.1 hrest
          simp only [hd, hrest, Except.map, Except.ok.injEq] at h
          subst h
          simpa [hlt, hsymbol, htext] using hall
    · rintro ⟨hall, h⟩
      cases ds with
      | nil => cases h
      | cons d ds =>
        obtain ⟨rfl, htext⟩ := List.cons.inj h
        have hrest : digits (offset + 1) text = .ok ds :=
          ih.2 ⟨fun e he => hall e (by simp [he]), htext⟩
        simp [digit?_symbol (hall d (by simp)), hrest, Except.map]

/-- What the last group reads as: more digits, if no padding came before, and then padding, if two
digits came before. -/
theorem Tail.of_read {start : Nat} {t u : Tail} {text : List UInt8}
    (h : t.read start text = .ok u) :
    ∃ ds p, text = ds.map symbol ++ List.replicate p pad ∧ u.digits = t.digits ++ ds ∧
      u.paddings = t.paddings + p ∧ (∀ d ∈ ds, d < 64) ∧ (0 < t.paddings → ds = []) := by
  fun_induction Tail.read start t text with
  | case1 t =>
    cases h
    exact ⟨[], 0, by simp⟩
  | case2 => cases h
  | case3 t b rest k hb hk ih =>
    obtain ⟨ds, p, rfl, hdigits, hpaddings, hall, hnone⟩ := ih h
    obtain rfl := hnone (Nat.succ_pos _)
    refine ⟨[], p + 1, ?_, hdigits, by simp only at hpaddings; omega, hall, fun _ => rfl⟩
    rw [beq_iff_eq.1 hb]
    rfl
  | case4 => cases h
  | case5 t b rest hb hpad d hd ih =>
    obtain ⟨ds, p, rfl, hdigits, hpaddings, hall, -⟩ := ih h
    obtain ⟨hlt, hsymbol⟩ := symbol_of_digit? hd
    refine ⟨d :: ds, p, by simp [hsymbol], by simp [hdigits], hpaddings, ?_, fun h => absurd h hpad⟩
    exact List.forall_mem_cons.2 ⟨hlt, hall⟩
  | case6 => cases h

theorem Tail.read_paddings {start : Nat} {t : Tail} {p : Nat}
    (h : 2 ≤ t.digits.length) :
    t.read start (List.replicate p pad) = .ok { t with paddings := t.paddings + p } := by
  induction p generalizing t with
  | zero => rfl
  | succ p ih =>
    have hrest := ih (t := { t with paddings := t.paddings + 1 }) h
    rw [List.replicate_succ, Tail.read, if_pos (by simp), if_neg (by omega), hrest]
    simp only [Nat.add_assoc, Nat.add_comm 1]

theorem Tail.read_digits (start : Nat) (rest : List UInt8) {t : Tail} {ds : List Nat}
    (hall : ∀ d ∈ ds, d < 64) (ht : t.paddings = 0) :
    ∃ last, t.read start (ds.map symbol ++ rest) =
      Tail.read start { t with digits := t.digits ++ ds, last := last } rest := by
  induction ds generalizing t with
  | nil => exact ⟨t.last, by simp⟩
  | cons d ds ih =>
    have hd := hall d (by simp)
    obtain ⟨last, hlast⟩ := ih (t := { t with digits := t.digits ++ [d], last := symbol d })
      (fun e he => hall e (by simp [he])) ht
    refine ⟨last, ?_⟩
    rw [List.map_cons, List.cons_append, Tail.read, if_neg (by simp [symbol_ne_pad hd]),
      if_neg (by omega), digit?_symbol hd]
    simpa using hlast

/-! ## Whole texts -/

/-- The text of a last group. -/
def Tail.text (t : Tail) : List UInt8 := t.digits.map symbol ++ List.replicate t.paddings pad

/-- Whole groups of digits and a last group with padding, where no bit is lost. -/
structure Grouped (body : List Nat) (t : Tail) : Prop where
  whole : body.length % 4 = 0
  digits_lt : ∀ d ∈ body ++ t.digits, d < 64
  enough : 2 ≤ t.digits.length
  padded : t.digits.length + t.paddings = 4
  unused : t.unusedBits = 0

theorem grouped_cons_iff {a b c d : Nat} {body : List Nat} {t : Tail} :
    Grouped (a :: b :: c :: d :: body) t ↔
      (a < 64 ∧ b < 64 ∧ c < 64 ∧ d < 64) ∧ Grouped body t := by
  have hwhole : (a :: b :: c :: d :: body).length % 4 = body.length % 4 := by
    simp only [List.length_cons]
    omega
  constructor
  · intro h
    have hlt := h.digits_lt
    simp only [List.cons_append, List.forall_mem_cons] at hlt
    obtain ⟨ha, hb, hc, hd, hlt⟩ := hlt
    exact ⟨⟨ha, hb, hc, hd⟩, { h with whole := hwhole ▸ h.whole, digits_lt := hlt }⟩
  · rintro ⟨⟨ha, hb, hc, hd⟩, h⟩
    refine { h with whole := hwhole ▸ h.whole, digits_lt := ?_ }
    simp only [List.cons_append, List.forall_mem_cons]
    exact ⟨ha, hb, hc, hd, h.digits_lt⟩

theorem Grouped.tail_cases {body : List Nat} {t : Tail} (h : Grouped body t) :
    (∃ a b, t.digits = [a, b] ∧ t.paddings = 2) ∨ (∃ a b c, t.digits = [a, b, c] ∧ t.paddings = 1) ∨
      ∃ a b c d, t.digits = [a, b, c, d] ∧ t.paddings = 0 := by
  have henough := h.enough
  have hpadded := h.padded
  rcases ht : t.digits with _ | ⟨a, _ | ⟨b, _ | ⟨c, _ | ⟨d, _ | ⟨e, ds⟩⟩⟩⟩⟩ <;>
    simp only [ht, List.length_cons, List.length_nil] at henough hpadded
  · omega
  · omega
  · exact .inl ⟨a, b, rfl, by omega⟩
  · exact .inr (.inl ⟨a, b, c, rfl, by omega⟩)
  · exact .inr (.inr ⟨a, b, c, d, rfl, by omega⟩)
  · omega

theorem toNat_ofNat {n : Nat} (h : n < 256) : (UInt8.ofNat n).toNat = n := by
  simp [Nat.mod_eq_of_lt h]

theorem encode_group {a b c d : Nat} {ds : List Nat} (ha : a < 64) (hb : b < 64) (hc : c < 64)
    (hd : d < 64) :
    encode (ofDigits (a :: b :: c :: d :: ds)) =
      symbol a :: symbol b :: symbol c :: symbol d :: encode (ofDigits ds) := by
  rw [ofDigits, encode, toNat_ofNat (by omega), toNat_ofNat (by omega), toNat_ofNat (by omega)]
  rw [show (a * 4 + b / 16) / 4 = a by omega,
    show (a * 4 + b / 16) % 4 * 16 + (b % 16 * 16 + c / 4) / 16 = b by omega,
    show (b % 16 * 16 + c / 4) % 16 * 4 + (c % 4 * 64 + d) / 64 = c by omega,
    show (c % 4 * 64 + d) % 64 = d by omega]

theorem encode_tail {body : List Nat} {t : Tail} (h : Grouped body t) :
    encode (ofDigits t.digits) = t.text := by
  have hlt : ∀ d ∈ t.digits, d < 64 := fun d hd => h.digits_lt d (List.mem_append_right _ hd)
  have hunused := h.unused
  rcases h.tail_cases with ⟨a, b, hds, hp⟩ | ⟨a, b, c, hds, hp⟩ | ⟨a, b, c, d, hds, hp⟩ <;>
    simp only [hds, Tail.unusedBits, List.forall_mem_cons] at hunused hlt <;>
    rw [Tail.text, hds, hp]
  · rw [ofDigits, encode, toNat_ofNat (by omega), show (a * 4 + b / 16) / 4 = a by omega,
      show (a * 4 + b / 16) % 4 * 16 = b by omega]
    rfl
  · rw [ofDigits, encode, toNat_ofNat (by omega), toNat_ofNat (by omega),
      show (a * 4 + b / 16) / 4 = a by omega,
      show (a * 4 + b / 16) % 4 * 16 + (b % 16 * 16 + c / 4) / 16 = b by omega,
      show (b % 16 * 16 + c / 4) % 16 * 4 = c by omega]
    rfl
  · rw [encode_group (by omega) (by omega) (by omega) (by omega)]
    rfl

/-- Encoding the bytes of the digits gives the text of the digits. -/
theorem encode_ofDigits {body : List Nat} {t : Tail} (h : Grouped body t) :
    encode (ofDigits (body ++ t.digits)) = body.map symbol ++ t.text := by
  induction body using ofDigits.induct with
  | case1 a b c d rest ih =>
    obtain ⟨⟨ha, hb, hc, hd⟩, hrest⟩ := grouped_cons_iff.1 h
    rw [List.cons_append, List.cons_append, List.cons_append, List.cons_append,
      encode_group ha hb hc hd, ih hrest]
    rfl
  | case2 a b c => simpa using h.whole
  | case3 a b => simpa using h.whole
  | case4 body h₁ h₂ h₃ =>
    rcases body with _ | ⟨a, _ | ⟨b, _ | ⟨c, _ | ⟨d, rest⟩⟩⟩⟩
    · exact encode_tail h
    · simpa using h.whole
    · exact absurd rfl (h₃ a b)
    · exact absurd rfl (h₂ a b c)
    · exact absurd rfl (h₁ a b c d rest)

theorem ofDigits_group (a b c : UInt8) (ds : List Nat) :
    ofDigits (a.toNat / 4 :: (a.toNat % 4 * 16 + b.toNat / 16) :: (b.toNat % 16 * 4 + c.toNat / 64)
      :: (c.toNat % 64) :: ds) = a :: b :: c :: ofDigits ds := by
  have hb := b.toNat_lt
  have hc := c.toNat_lt
  rw [ofDigits, show a.toNat / 4 * 4 + (a.toNat % 4 * 16 + b.toNat / 16) / 16 = a.toNat by omega,
    show (a.toNat % 4 * 16 + b.toNat / 16) % 16 * 16 + (b.toNat % 16 * 4 + c.toNat / 64) / 4 =
      b.toNat by omega,
    show (b.toNat % 16 * 4 + c.toNat / 64) % 4 * 64 + c.toNat % 64 = c.toNat by omega]
  simp only [UInt8.ofNat_toNat]

/-- All bytes are the bytes of some digits. -/
theorem exists_grouped {bytes : List UInt8} (h : bytes ≠ []) :
    ∃ body t, Grouped body t ∧ ofDigits (body ++ t.digits) = bytes := by
  induction bytes using encode.induct with
  | case1 a b c rest ih =>
    have hlt : a.toNat / 4 < 64 ∧ a.toNat % 4 * 16 + b.toNat / 16 < 64 ∧
        b.toNat % 16 * 4 + c.toNat / 64 < 64 ∧ c.toNat % 64 < 64 := by
      have ha := a.toNat_lt
      have hb := b.toNat_lt
      have hc := c.toNat_lt
      omega
    by_cases hrest : rest = []
    · subst hrest
      refine ⟨[], ⟨[_, _, _, _], 0, 0⟩, ⟨rfl, ?_, by simp, rfl, rfl⟩, ofDigits_group a b c []⟩
      simpa using hlt
    · obtain ⟨body, t, ht, rfl⟩ := ih hrest
      exact ⟨_ :: _ :: _ :: _ :: body, t, grouped_cons_iff.2 ⟨hlt, ht⟩, ofDigits_group a b c _⟩
  | case2 a b =>
    have ha := a.toNat_lt
    have hb := b.toNat_lt
    refine ⟨[], ⟨[a.toNat / 4, a.toNat % 4 * 16 + b.toNat / 16, b.toNat % 16 * 4], 0, 1⟩,
      ⟨rfl, ?_, by simp, rfl, ?_⟩, ?_⟩
    · simp
      omega
    · simp only [Tail.unusedBits]
      omega
    · rw [List.nil_append, ofDigits,
        show a.toNat / 4 * 4 + (a.toNat % 4 * 16 + b.toNat / 16) / 16 = a.toNat by omega,
        show (a.toNat % 4 * 16 + b.toNat / 16) % 16 * 16 + b.toNat % 16 * 4 / 4 = b.toNat by omega]
      simp only [UInt8.ofNat_toNat]
  | case3 a =>
    have ha := a.toNat_lt
    refine ⟨[], ⟨[a.toNat / 4, a.toNat % 4 * 16], 0, 2⟩, ⟨rfl, ?_, by simp, rfl, ?_⟩, ?_⟩
    · simp
      omega
    · simp [Tail.unusedBits]
    · rw [List.nil_append, ofDigits,
        show a.toNat / 4 * 4 + a.toNat % 4 * 16 / 16 = a.toNat by omega, UInt8.ofNat_toNat]
  | case4 => exact absurd rfl h

theorem Tail.length_text (t : Tail) : t.text.length = t.digits.length + t.paddings := by
  simp [Tail.text]

/-- The stages of decoding and what each must find. -/
theorem decode_eq_ok_iff_stages {text bytes : List UInt8} : decode text = .ok bytes ↔
    checkSingle text = .ok () ∧ ∃ body t, digits 0 (text.take (tailStart text.length)) = .ok body ∧
      Tail.read (tailStart text.length) {} (text.drop (tailStart text.length)) = .ok t ∧
      (text = [] ∨ 2 ≤ t.digits.length) ∧ (t.digits.length + t.paddings) % 4 = 0 ∧
      t.unusedBits = 0 ∧ bytes = ofDigits (body ++ t.digits) := by
  cases hsingle : checkSingle text with
  | error fault => simp [decode, hsingle, bind, Except.bind]
  | ok =>
    cases hbody : digits 0 (text.take (tailStart text.length)) with
    | error fault => simp [decode, hsingle, hbody, bind, Except.bind]
    | ok body =>
      cases htail : Tail.read (tailStart text.length) {} (text.drop (tailStart text.length)) with
      | error fault => simp [decode, hsingle, hbody, htail, bind, Except.bind]
      | ok t =>
        simp only [decode, hsingle, hbody, htail, bind, Except.bind, throw, throwThe,
          MonadExceptOf.throw, pure, Except.pure]
        split_ifs with h₁ h₂ h₃ <;> grind

theorem decode_grouped {body : List Nat} {t : Tail} (h : Grouped body t) :
    decode (body.map symbol ++ t.text) = .ok (ofDigits (body ++ t.digits)) := by
  have hwhole := h.whole
  have hlength : (body.map symbol ++ t.text).length = body.length + 4 := by
    rw [List.length_append, List.length_map, t.length_text, h.padded]
  have hstart : tailStart (body.length + 4) = body.length := by
    rw [tailStart, if_pos (by omega)]
    omega
  have hsingle : checkSingle (body.map symbol ++ t.text) = .ok () := by
    rw [checkSingle, hlength]
    split
    · rw [if_neg (by simp [show (body.length + 4) % 4 = 0 by omega])]
    · rfl
  have hbody : digits 0 (body.map symbol) = .ok body :=
    digits_eq_ok_iff.2 ⟨fun d hd => h.digits_lt d (List.mem_append_left _ hd), rfl⟩
  obtain ⟨last, hdigits⟩ := Tail.read_digits body.length (List.replicate t.paddings pad)
    (t := {}) (fun d hd => h.digits_lt d (List.mem_append_right _ hd)) rfl
  have hread : Tail.read body.length {} t.text = .ok ⟨t.digits, last, t.paddings⟩ := by
    rw [Tail.text, hdigits, Tail.read_paddings (by simpa using h.enough)]
    simp
  rw [decode_eq_ok_iff_stages, hlength, hstart, List.take_left' (List.length_map _),
    List.drop_left' (List.length_map _)]
  exact ⟨hsingle, body, _, hbody, hread, .inr h.enough, by rw [h.padded], h.unused, rfl⟩

theorem grouped_of_decode {text bytes : List UInt8} (htext : text ≠ [])
    (h : decode text = .ok bytes) :
    ∃ body t, Grouped body t ∧ text = body.map symbol ++ t.text ∧
      bytes = ofDigits (body ++ t.digits) := by
  obtain ⟨-, body, t, hbody, hread, henough, hpadded, hunused, hbytes⟩ :=
    decode_eq_ok_iff_stages.1 h
  obtain ⟨hbody_lt, htake⟩ := digits_eq_ok_iff.1 hbody
  obtain ⟨ds, p, hdrop, hds, hp, htail_lt, -⟩ := Tail.of_read hread
  have hpos : 0 < text.length := List.length_pos_iff.2 htext
  have htake_length := congrArg List.length htake
  have hdrop_length := congrArg List.length hdrop
  simp only [List.nil_append, Nat.zero_add] at hds hp
  subst hds hp
  simp only [List.length_take, List.length_drop, List.length_map, List.length_append,
    List.length_replicate] at htake_length hdrop_length
  -- The last group is whole, so the text is a number of whole groups.
  have hgroups : body.length % 4 = 0 ∧ t.digits.length + t.paddings = 4 := by
    unfold tailStart at htake_length hdrop_length
    split_ifs at htake_length hdrop_length <;> omega
  refine ⟨body, t, ⟨hgroups.1, ?_, henough.resolve_left htext, hgroups.2, hunused⟩, ?_, hbytes⟩
  · exact List.forall_mem_append.2 ⟨hbody_lt, htail_lt⟩
  · rw [← htake, Tail.text, ← hdrop, List.take_append_drop]

theorem decode_eq_ok_iff {text bytes : List UInt8} :
    decode text = .ok bytes ↔ text = encode bytes := by
  constructor
  · intro h
    by_cases htext : text = []
    · subst htext
      cases h
      rfl
    · obtain ⟨body, t, ht, rfl, rfl⟩ := grouped_of_decode htext h
      rw [encode_ofDigits ht]
  · rintro rfl
    by_cases hbytes : bytes = []
    · subst hbytes
      rfl
    · obtain ⟨body, t, ht, rfl⟩ := exists_grouped hbytes
      rw [encode_ofDigits ht, decode_grouped ht]

end LispKernel.Base64
