import Mathlib.Data.UInt
import LispKernel.Proofs.Hash.Agreement
import LispKernel.Proofs.Seq.Count

/-!
# Mixing loses no information

Every step of mixing a hash with a count can be undone: multiplying by a number with an inverse,
rotating, adding and laying a word over its own bits further up. So the hash code of an ordered
collection tells the fold of the hash codes of its elements from every other fold, as long as the
number of elements is the same, and the number of elements from every other number, as long as the
fold is.
-/
namespace LispKernel

open Function (Bijective)

/-! ## Words -/

namespace Hash

section BitVec

variable {width : Nat}

/-- Two rotations that make up a full turn. -/
theorem rotateLeft_rotateLeft {r t : Nat} (hr : 0 < r) (ht : 0 < t) (h : r + t = width)
    (x : BitVec width) : (x.rotateLeft r).rotateLeft t = x := by
  subst h
  apply BitVec.eq_of_getLsbD_eq
  intro i hi
  rw [BitVec.getLsbD_rotateLeft_of_le (by omega)]
  -- the low bits went round in the second rotation, the others in the first
  by_cases hlow : i < t
  · have hplace : r + t - t + i - r = i := by omega
    rw [decide_eq_true hlow, cond_true, BitVec.getLsbD_rotateLeft_of_le (by omega),
      decide_eq_false (by omega), cond_false, decide_eq_true (by omega), Bool.true_and, hplace]
  · have hplace : r + t - r + (i - t) = i := by omega
    rw [decide_eq_false hlow, cond_false, decide_eq_true hi, Bool.true_and,
      BitVec.getLsbD_rotateLeft_of_le (by omega), decide_eq_true (by omega), cond_true, hplace]

/-- A word laid over its own bits further up. -/
def xorShift (k : Nat) (x : BitVec width) : BitVec width := x ^^^ x >>> k

/-- Twice is the same as once, twice as far up. -/
theorem xorShift_comp (k : Nat) :
    (xorShift k ∘ xorShift k : BitVec width → BitVec width) = xorShift (k + k) := by
  funext x
  show (x ^^^ x >>> k) ^^^ (x ^^^ x >>> k) >>> k = x ^^^ x >>> (k + k)
  rw [BitVec.ushiftRight_xor_distrib, BitVec.shiftRight_add, BitVec.xor_assoc,
    ← BitVec.xor_assoc (x >>> k), BitVec.xor_self, BitVec.zero_xor]

theorem xorShift_of_le {k : Nat} (h : width ≤ k) (x : BitVec width) : xorShift k x = x := by
  rw [xorShift, BitVec.ushiftRight_eq_zero h, BitVec.xor_zero]

/-- Repeated doubling leads beyond the word. -/
theorem xorShift_bijective {k : Nat} (hk : 0 < k) :
    Bijective (xorShift k : BitVec width → BitVec width) := by
  induction hd : width - k using Nat.strongRecOn generalizing k with
  | ind d ih =>
    by_cases hwidth : width ≤ k
    · rw [funext (xorShift_of_le hwidth)]
      exact Function.bijective_id
    · have hdouble := ih (width - (k + k)) (by omega) (k := k + k) (by omega) rfl
      rw [← xorShift_comp] at hdouble
      exact ⟨hdouble.1.of_comp, hdouble.2.of_comp⟩

end BitVec

theorem bijective_of_toBitVec {f : UInt32 → UInt32} {g : BitVec 32 → BitVec 32}
    (h : ∀ x, (f x).toBitVec = g x.toBitVec) (hg : Bijective g) : Bijective f := by
  have hword : Bijective UInt32.toBitVec :=
    ⟨fun _ _ => UInt32.toBitVec_inj.1, fun b => ⟨.ofBitVec b, rfl⟩⟩
  have hcomp : UInt32.toBitVec ∘ f = g ∘ UInt32.toBitVec := funext h
  rw [← hword.of_comp_iff' f, hcomp]
  exact hg.comp hword

/-- Multiplying is undone by multiplying with the inverse. -/
theorem mul_bijective (k inverse : UInt32) (h : k * inverse = 1) :
    Bijective fun x : UInt32 => x * k :=
  Units.mulRight_bijective (Units.mkOfMulEqOne k inverse h)

theorem xor_bijective (k : UInt32) : Bijective fun x : UInt32 => x ^^^ k :=
  Function.Involutive.bijective fun x => by
    rw [UInt32.xor_assoc, UInt32.xor_self, UInt32.xor_zero]

theorem toNat_mod_of_lt {k : UInt32} (hk : k < 32) : (k.toBitVec % 32).toNat = k.toNat := by
  have hlt : k.toNat < 32 := hk
  simpa using Nat.mod_eq_of_lt hlt

theorem xorShiftRight_bijective (k : UInt32) (hpos : 0 < k) (hk : k < 32) :
    Bijective fun x : UInt32 => x ^^^ (x >>> k) := by
  have hpos : 0 < k.toNat := hpos
  refine bijective_of_toBitVec (fun x => ?_) (xorShift_bijective hpos)
  rw [UInt32.toBitVec_xor, UInt32.toBitVec_shiftRight, BitVec.ushiftRight_eq', toNat_mod_of_lt hk]
  rfl

/-- The rotation made of two shifts. -/
theorem toBitVec_rotateLeft32 {k : UInt32} (hpos : 0 < k) (hk : k < 32) (x : UInt32) :
    (rotateLeft32 x k).toBitVec = x.toBitVec.rotateLeft k.toNat := by
  have hlt : k.toNat < 32 := hk
  have hpos : 0 < k.toNat := hpos
  have hback : (32 - k).toNat = 32 - k.toNat := UInt32.toNat_sub_of_le 32 k (Nat.le_of_lt hlt)
  have hbacklt : 32 - k < 32 := by
    rw [UInt32.lt_iff_toNat_lt, hback]
    show 32 - k.toNat < 32
    omega
  rw [rotateLeft32, UInt32.toBitVec_or, UInt32.toBitVec_shiftLeft, UInt32.toBitVec_shiftRight,
    BitVec.shiftLeft_eq', BitVec.ushiftRight_eq', toNat_mod_of_lt hk, toNat_mod_of_lt hbacklt,
    hback, BitVec.rotateLeft_def, Nat.mod_eq_of_lt hlt]

theorem rotateLeft32_bijective (k : UInt32) (hpos : 0 < k) (hk : k < 32) :
    Bijective fun x : UInt32 => rotateLeft32 x k := by
  refine bijective_of_toBitVec (g := fun x => x.rotateLeft k.toNat) (toBitVec_rotateLeft32 hpos hk)
    (Function.bijective_iff_has_inverse.2 ⟨fun x => x.rotateLeft (32 - k.toNat), ?_⟩)
  have hlt : k.toNat < 32 := hk
  have hpos : 0 < k.toNat := hpos
  exact ⟨rotateLeft_rotateLeft hpos (by omega) (by omega),
    rotateLeft_rotateLeft (by omega) hpos (by omega)⟩

/-! ## Mixing -/

theorem spread_bijective : Bijective spread :=
  (mul_bijective 0x1b873593 0x56ed309b rfl).comp <|
    (rotateLeft32_bijective 15 (by decide) (by decide)).comp <|
      mul_bijective 0xcc9e2d51 0xdee13bb1 rfl

theorem blend_bijective : Bijective blend :=
  (AddGroup.addRight_bijective (0xe6546b64 : UInt32)).comp <|
    (mul_bijective 5 0xcccccccd rfl).comp <|
      rotateLeft32_bijective 13 (by decide) (by decide)

theorem avalanche_bijective : Bijective avalanche :=
  (xorShiftRight_bijective 16 (by decide) (by decide)).comp <|
    (mul_bijective 0xc2b2ae35 0x7ed1b41d rfl).comp <|
      (xorShiftRight_bijective 13 (by decide) (by decide)).comp <|
        (mul_bijective 0x85ebca6b 0xa5cb9243 rfl).comp <|
          xorShiftRight_bijective 16 (by decide) (by decide)

theorem mix_bijective_hash (count : UInt32) : Bijective fun h => mix h count :=
  avalanche_bijective.comp <| (xor_bijective count).comp <|
    blend_bijective.comp spread_bijective

theorem mix_bijective_count (h : UInt32) : Bijective (mix h) := by
  have hxor : Bijective fun count => blend (spread h) ^^^ count := by
    simpa only [UInt32.xor_comm] using xor_bijective (blend (spread h))
  exact avalanche_bijective.comp hxor

/-! ## Folding -/

/-- Hash codes folded one after another, the ones before them times 31. -/
def folded (hs : List UInt32) : UInt32 := hs.foldl (fun h code => h * 31 + code) 1

theorem foldl_ordered (hs : List UInt32) (t : Tally) :
    hs.foldl Tally.ordered t = ⟨hs.foldl (fun h code => h * 31 + code) t.hash,
      t.count + UInt32.ofNat hs.length⟩ := by
  induction hs generalizing t with
  | nil => simp
  | cons code hs ih =>
    rw [List.foldl_cons, ih, Tally.ordered, List.foldl_cons, List.length_cons]
    simp [UInt32.add_assoc, UInt32.add_comm]

theorem ordered_eq_mix (hs : List UInt32) :
    ordered hs = mix (folded hs) (UInt32.ofNat hs.length) := by
  rw [ordered, foldl_ordered]
  simp [Tally.finish, Tally.seeded, folded]

theorem ordered_eq_iff {hs ks : List UInt32} (h : hs.length = ks.length) :
    ordered hs = ordered ks ↔ folded hs = folded ks := by
  rw [ordered_eq_mix, ordered_eq_mix, h]
  exact (mix_bijective_hash _).1.eq_iff

theorem ordered_ne {hs ks : List UInt32} (hhs : hs.length < UInt32.size)
    (hks : ks.length < UInt32.size) (hlength : hs.length ≠ ks.length)
    (hfolded : folded hs = folded ks) : ordered hs ≠ ordered ks := by
  rw [ordered_eq_mix, ordered_eq_mix, hfolded, (mix_bijective_count _).1.ne_iff]
  intro heq
  have hnat := congrArg UInt32.toNat heq
  rw [UInt32.toNat_ofNat_of_lt' hhs, UInt32.toNat_ofNat_of_lt' hks] at hnat
  exact hlength hnat

end Hash

/-! ## Hash codes of ordered collections -/

theorem foldlM_eq_mapM {α β γ : Type} (f : α → Run β) (g : γ → β → γ) (l : List α) (c : γ) :
    l.foldlM (fun c x => return g c (← f x)) c = (fun ys => ys.foldl g c) <$> l.mapM f := by
  induction l generalizing c with
  | nil => simp
  | cons x l ih =>
    simp only [List.foldlM_cons, List.mapM_cons, bind_assoc, pure_bind, map_eq_pure_bind, ih,
      List.foldl_cons]

namespace Seq

variable (force : Force) {β γ : Type} (f : Value → Run β)

/-- What comes of the elements of a sequence, each taken as soon as it is met. -/
def mapM : Nat → Seq → Run (List β)
  | 0, _ => .exhausted
  | n + 1, s => do
    match ← s.next force n with
    | none => return []
    | some (x, rest) => return (← f x) :: (← mapM n rest)

theorem fold_eq_mapM (g : γ → β → γ) (n : Nat) (c : γ) (s : Seq) :
    s.fold force (fun c x => return g c (← f x)) n c =
      (fun ys => ys.foldl g c) <$> s.mapM force f n := by
  induction n generalizing c s with
  | zero => rfl
  | succ n ih =>
    rw [fold, mapM, map_bind]
    congr 1
    funext next
    rcases next with _ | ⟨x, rest⟩
    · rfl
    · simp only [bind_assoc, pure_bind, map_eq_pure_bind, ih, List.foldl_cons]

variable {force f}

theorem length_of_mapM {s : Seq} {n k : Nat} {w w' : World} {ys : List β}
    (hs : s.counted = some k) (h : s.mapM force f n w = some (.ok ys, w')) : ys.length = k := by
  induction n generalizing s k w ys with
  | zero => cases h
  | succ n ih =>
    rw [mapM] at h
    obtain ⟨next, v, hnext, h⟩ := Run.bind_eq_ok.1 h
    cases n with
    | zero => cases hnext
    | succ n =>
      rcases counted_cases hs with ⟨rfl, hopens⟩ | ⟨front, j, rfl, hopens, hdone, hrest⟩
      · cases (next_of_done (hopens force n w)).symm.trans hnext
        cases h
        rfl
      · obtain ⟨x, u, hfirst, -⟩ := front.first_ahead w
        have hsettled := hopens.settled force n w
        cases (next_of_front (hopens force n w) hsettled hdone hfirst).symm.trans hnext
        obtain ⟨y, _, -, h⟩ := Run.bind_eq_ok.1 h
        obtain ⟨zs, _, hzs, h⟩ := Run.bind_eq_ok.1 h
        cases h
        rw [List.length_cons, ih hrest hzs]

end Seq

theorem Run.length_of_mapM {α β : Type} {f : α → Run β} {l : List α} {w w' : World} {ys : List β}
    (h : l.mapM f w = some (.ok ys, w')) : ys.length = l.length := by
  induction l generalizing w ys with
  | nil =>
    cases h
    rfl
  | cons x l ih =>
    rw [List.mapM_cons] at h
    obtain ⟨y, v, -, h⟩ := Run.bind_eq_ok.1 h
    obtain ⟨zs, u, hzs, h⟩ := Run.bind_eq_ok.1 h
    cases h
    rw [List.length_cons, List.length_cons, ih hzs]

namespace Value

section

variable (force : Force) (single : Identity → UInt32)

/-- The hash codes of the elements of a vector or a sequence, one after another. -/
def elementHashes (n : Nat) : Value → Run (List UInt32)
  | vector v => v.items.mapM (hash force single n)
  | seq s => s.mapM force (hash force single n) n
  | _ => .exhausted

theorem hash_eq_ordered {v : Value} (h : v.isSequential = true) (n : Nat) :
    v.hash force single (n + 1) = Hash.ordered <$> v.elementHashes force single n := by
  cases v with
  | vector v =>
    show (v.items.foldlM (fun t x => return t.ordered (← hash force single n x))
      (Hash.Tally.seeded 1) >>= fun t => return t.finish) = _
    rw [foldlM_eq_mapM, bind_pure_comp, Functor.map_map]
    rfl
  | seq s =>
    show (s.fold force (fun t x => return t.ordered (← hash force single n x)) n
      (Hash.Tally.seeded 1) >>= fun t => return t.finish) = _
    rw [Seq.fold_eq_mapM, bind_pure_comp, Functor.map_map]
    rfl
  | atom a => cases h
  | map m => cases h
  | set s => cases h

theorem hash_eq_ok_iff {v : Value} (h : v.isSequential = true) {n : Nat} {w w' : World}
    {code : UInt32} : v.hash force single (n + 1) w = some (.ok code, w') ↔
      ∃ hs, v.elementHashes force single n w = some (.ok hs, w') ∧ code = Hash.ordered hs := by
  rw [hash_eq_ordered force single h, map_eq_pure_bind, Run.bind_eq_ok]
  constructor
  · rintro ⟨hs, v, hrun, hcode⟩
    cases hcode
    exact ⟨hs, hrun, rfl⟩
  · rintro ⟨hs, hrun, rfl⟩
    exact ⟨hs, w', hrun, rfl⟩

variable {force single}

theorem length_of_elementHashes {v : Value} {n k : Nat} {w w' : World} {hs : List UInt32}
    (hcount : v.count? = some k) (h : v.elementHashes force single n w = some (.ok hs, w')) :
    hs.length = k := by
  cases v with
  | vector v =>
    cases hcount
    exact Run.length_of_mapM h
  | seq s => exact Seq.length_of_mapM hcount h
  | atom a => cases h
  | map m => cases h
  | set s => cases h

end

/-- Mixing is a bijection in the hash and in the count. Hashing an ordered collection hashes its
elements, as many as it counts where it can be counted without a walk, and mixes the fold with their
number. So two collections with the same number of elements have the same hash code iff they have
the same fold, and with the same fold and another number their hash codes differ. -/
theorem ordered_hash_loses_nothing (force : Force) (single : Identity → UInt32) :
    (∀ count, Bijective fun h => Hash.mix h count) ∧ (∀ h, Bijective (Hash.mix h)) ∧
    (∀ a : Value, a.isSequential = true → ∀ n,
      (a.hash force single (n + 1) = do
        let hs ← a.elementHashes force single n
        return Hash.mix (Hash.folded hs) (UInt32.ofNat hs.length)) ∧
      ∀ w hs w' k, a.elementHashes force single n w = some (.ok hs, w') → a.count? = some k →
        hs.length = k) ∧
    ∀ a b : Value, a.isSequential = true → b.isSequential = true →
      ∀ n m w v code code' w' v', a.hash force single (n + 1) w = some (.ok code, w') →
        b.hash force single (m + 1) v = some (.ok code', v') →
        ∃ hs ks, a.elementHashes force single n w = some (.ok hs, w') ∧
          b.elementHashes force single m v = some (.ok ks, v') ∧
          (hs.length = ks.length → (code = code' ↔ Hash.folded hs = Hash.folded ks)) ∧
          (hs.length ≠ ks.length → hs.length < UInt32.size → ks.length < UInt32.size →
            Hash.folded hs = Hash.folded ks → code ≠ code') := by
  refine ⟨Hash.mix_bijective_hash, Hash.mix_bijective_count, fun a ha n => ⟨?_, ?_⟩, ?_⟩
  · rw [hash_eq_ordered force single ha, map_eq_pure_bind]
    simp only [Hash.ordered_eq_mix]
  · exact fun w hs w' k hrun hcount => length_of_elementHashes hcount hrun
  · intro a b ha hb n m w v code code' w' v' hcode hcode'
    obtain ⟨hs, hrun, rfl⟩ := (hash_eq_ok_iff force single ha).1 hcode
    obtain ⟨ks, hrun', rfl⟩ := (hash_eq_ok_iff force single hb).1 hcode'
    exact ⟨hs, ks, hrun, hrun', Hash.ordered_eq_iff,
      fun hne hhs hks => Hash.ordered_ne hhs hks hne⟩

/-- A vector and a lazy sequence whose elements differ while their folds are equal, and a vector of
one element with the fold of the empty list. -/
theorem ordered_hash_loses_nothing_same_folds :
    let s : Seq := .cons 0 (.int 7690814730822221824) (.cons 1 .nil (.empty .plain) .plain) .plain
    let w : World := { lazies := ⟨#[.realized s]⟩ }
    let pair : Value := vector ⟨⟨2, [.nil, .int (-1392416302735294464)]⟩, .plain⟩
    let other : Value := seq (.lazy 0 .plain)
    let lone : Value := vector ⟨⟨3, [.int 801274811267438131]⟩, .plain⟩
    let none : Value := seq (.empty .plain)
    let elements (v : Value) := v.elementHashes (Machine.force 9) Identity.hash 8 w
    let hashed (v : Value) := v.hash (Machine.force 9) Identity.hash 9 w
    elements pair = some (.ok [0, 31], w) ∧ elements other = some (.ok [1, 0], w) ∧
    elements lone = some (.ok [0xffffffe2], w) ∧ elements none = some (.ok [], w) ∧
    ∃ code code₁ code₂, hashed pair = some (.ok code, w) ∧ hashed other = some (.ok code, w) ∧
      hashed lone = some (.ok code₁, w) ∧ hashed none = some (.ok code₂, w) ∧ code₁ ≠ code₂ := by
  intro s w pair other lone none elements hashed
  have hpair : elements pair = some (.ok [0, 31], w) := rfl
  have hother : elements other = some (.ok [1, 0], w) := rfl
  have hlone : elements lone = some (.ok [0xffffffe2], w) := rfl
  have hnone : elements none = some (.ok [], w) := rfl
  obtain ⟨code, hcode⟩ : ∃ code, hashed pair = some (.ok code, w) := ⟨_, rfl⟩
  obtain ⟨code', hcode'⟩ : ∃ code', hashed other = some (.ok code', w) := ⟨_, rfl⟩
  obtain ⟨code₁, hcode₁⟩ : ∃ code₁, hashed lone = some (.ok code₁, w) := ⟨_, rfl⟩
  obtain ⟨code₂, hcode₂⟩ : ∃ code₂, hashed none = some (.ok code₂, w) := ⟨_, rfl⟩
  obtain ⟨-, -, -, hordered⟩ := ordered_hash_loses_nothing (Machine.force 9) Identity.hash
  obtain ⟨hs, ks, hhs, hks, heq, -⟩ :=
    hordered pair other rfl rfl 8 8 w w code code' w w hcode hcode'
  cases hpair.symm.trans hhs
  cases hother.symm.trans hks
  obtain ⟨hs, ks, hhs, hks, -, hne⟩ :=
    hordered lone none rfl rfl 8 8 w w code₁ code₂ w w hcode₁ hcode₂
  cases hlone.symm.trans hhs
  cases hnone.symm.trans hks
  have hsame : code = code' := (heq rfl).2 (by decide)
  have hapart : code₁ ≠ code₂ := hne (by decide) (by decide) (by decide) (by decide)
  exact ⟨hpair, hother, hlone, hnone, code, code₁, code₂, hcode, hsame ▸ hcode', hcode₁, hcode₂,
    hapart⟩

end Value

end LispKernel
