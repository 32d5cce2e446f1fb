import LispKernel.Proofs.Seq.Elements
import LispKernel.Proofs.Seq.Index

/-!
# Indexed access to vectors

An index reaches an element of a vector in several ways: directly, by a call, as an entry, or by a
walk along a sequence with the same elements. All give the same element or the same error, for
negative indices and those behind the end as well. An update succeeds at these indices and at the
count, where it appends, and reading after an update gives what was put.
-/
namespace LispKernel

open List (Forall₂)
open Run (Settles Refines Alike)
open Value (Copy)

/-! ## Elements of lists -/

namespace Seq

variable {index : Int64} {walked : Nat} {xs ys : List Value}

theorem elementAt_of_neg (h : index < 0) (ys : List Value) :
    elementAt index ys = .error (.indexOutOfRange index none) := if_pos h

theorem elementAt_of_getElem? {y : Value} (h : ¬index < 0)
    (hy : ys[index.toInt.toNat]? = some y) : elementAt index ys = .ok y := by
  rw [elementAt, if_neg h, elementFrom, Nat.sub_zero, hy]

theorem elementAt_of_length_le (h : ¬index < 0) (hlength : ys.length ≤ index.toInt.toNat) :
    elementAt index ys = .error (.indexOutOfRange index (some ys.length)) := by
  rw [elementAt, if_neg h, elementFrom, Nat.sub_zero, List.getElem?_eq_none hlength, Nat.zero_add]

theorem elementAt_eq_ok_iff {y : Value} :
    elementAt index ys = .ok y ↔ ¬index < 0 ∧ ys[index.toInt.toNat]? = some y := by
  by_cases h : index < 0
  · simp [elementAt_of_neg h, h]
  · cases hy : ys[index.toInt.toNat]? with
    | none => simp [elementAt_of_length_le h (List.getElem?_eq_none_iff.1 hy)]
    | some z => simp [elementAt_of_getElem? h hy, h]

/-- Copies of the same elements have copies at every index. -/
theorem alike_elementAt (h : Forall₂ Copy xs ys) :
    Alike Copy (elementAt index xs) (elementAt index ys) := by
  by_cases hneg : index < 0
  · rw [elementAt_of_neg hneg, elementAt_of_neg hneg]
    rfl
  · obtain ⟨hlength, hcopy⟩ := List.forall₂_iff_get.1 h
    by_cases hlt : index.toInt.toNat < xs.length
    · have hlt' : index.toInt.toNat < ys.length := by omega
      rw [elementAt_of_getElem? hneg (List.getElem?_eq_getElem hlt),
        elementAt_of_getElem? hneg (List.getElem?_eq_getElem hlt')]
      exact hcopy _ hlt hlt'
    · rw [elementAt_of_length_le hneg (by omega), elementAt_of_length_le hneg (by omega), hlength]
      rfl

/-! ## Walking along a slice -/

theorem opens_ofSlice (kind : ViewKind) (storage : Storage) (slice : Slice) :
    (ofSlice kind storage slice).Opens (slice.front kind storage) := by
  refine ofSlice_cases (fun _ => opens_view kind storage slice .plain) fun hnil => ?_
  rw [Slice.front, hnil]
  exact fun _ _ _ => rfl

/-- A walk along a slice gives the elements as they are held and leaves the world alone. -/
theorem nthFrom_ofSlice (force : Force) {kind : ViewKind} {storage : Storage} {slice : Slice}
    {n : Nat} (hn : slice.toList.length + 1 < n) (hwalked : walked ≤ index.toInt) (w : World) :
    (ofSlice kind storage slice).nthFrom force index n walked w =
      some (elementFrom index walked slice.toList, w) := by
  induction hitems : slice.toList generalizing slice n walked with
  | nil =>
    obtain ⟨m, rfl⟩ : ∃ m, n = m + 2 := ⟨n - 2, by omega⟩
    have hopens := opens_ofSlice kind storage slice
    rw [Slice.front, hitems] at hopens
    exact nthFrom_of_done (hopens force m w)
  | cons x rest ih =>
    rw [hitems, List.length_cons] at hn
    obtain ⟨m, rfl⟩ : ∃ m, n = m + 2 := ⟨n - 2, by omega⟩
    have hopens := opens_ofSlice kind storage slice
    rw [Slice.front, hitems] at hopens
    have hrest : slice.rest.toList = rest := by rw [slice.toList_rest, hitems, List.tail_cons]
    rw [nthFrom_of_settled (hopens force m w) (hopens.settled force m w) rfl]
    by_cases hindex : walked = index.toInt
    · have hzero : index.toInt.toNat - walked = 0 := by omega
      rw [if_pos hindex, elementFrom, hzero]
      rfl
    · rw [if_neg hindex, elementFrom_cons x rest (by omega)]
      exact ih (by rw [hrest]; omega) (by omega) hrest

theorem nth_ofSlice_settles (force : Force) (kind : ViewKind) (storage : Storage) (slice : Slice)
    (index : Int64) : Settles (fun n => ((ofSlice kind storage slice).nth force n index).attempt)
      (· = elementAt index slice.toList) := by
  apply Settles.of_returns (N := slice.toList.length + 2)
  · exact fun hn => (nth_congr Refines.any (refines_self force) hn _ index).attempt
  · intro n hn w
    refine ⟨elementAt index slice.toList, w.storages, Run.attempt_eq ?_, rfl⟩
    by_cases hneg : index < 0
    · rw [nth_of_neg hneg, elementAt_of_neg hneg]
      rfl
    · rw [nth_of_nonneg hneg, elementAt, if_neg hneg]
      have hindex := toInt_of_nonneg hneg
      exact nthFrom_ofSlice force (by omega) (by omega) w

end Seq

namespace Vec

/-- The vector `u` is the vector `v` with an element put at an index. -/
structure Assigned (v : Vec) (index : Int64) (x : Value) (u : Vec) : Prop where
  nth_same : u.nth index = .ok x
  nth_other {j : Int64} : j ≠ index → 0 ≤ j → j.toInt < v.count → u.nth j = v.nth j
  count : u.count = max v.count (index.toInt.toNat + 1)
  info : u.info = v.info

variable {v u : Vec} {index : Int64} {x : Value}

/-! ## Reading -/

theorem checkIndex_of_lt (h : ¬index < 0) (hlt : index.toInt.toNat < v.count) :
    v.checkIndex index = .ok index.toInt.toNat := by
  rw [checkIndex, if_neg h, if_pos hlt]

theorem nth_eq (v : Vec) (index : Int64) : v.nth index = Seq.elementAt index v.items := by
  by_cases hneg : index < 0
  · rw [Seq.elementAt_of_neg hneg, nth, checkIndex, if_pos hneg]
    rfl
  · by_cases hlt : index.toInt.toNat < v.count
    · have hget : v.get? index.toInt.toNat = some _ := List.getElem?_eq_getElem hlt
      rw [Seq.elementAt_of_getElem? hneg hget]
      simp only [nth, checkIndex_of_lt hneg hlt, bind, Except.bind, hget]
      rfl
    · rw [Seq.elementAt_of_length_le hneg (Nat.le_of_not_lt hlt), nth, checkIndex, if_neg hneg,
        if_neg hlt]
      rfl

theorem nth_eq_ok_iff {y : Value} :
    v.nth index = .ok y ↔ ¬index < 0 ∧ v.items[index.toInt.toNat]? = some y := by
  rw [nth_eq, Seq.elementAt_eq_ok_iff]

theorem call_eq (v : Vec) (index : Int64) (w : World) :
    v.call [.int index] w = some (v.nth index, w) := rfl

theorem pair_returns (key value : Value) : (pair key value).Returns (·.items = [key, value]) :=
  .bind .freshStorage fun _ _ => .pure rfl

/-- An entry is there exactly where an element is. -/
theorem entryAt_returns (v : Vec) (index : Int64) : (v.entryAt (.int index)).Returns fun entry =>
    (∀ y, entry.map items = some [.int index, y] ↔ v.nth index = .ok y) ∧
      (entry = none ↔ ∃ e, v.nth index = .error e) := by
  rw [entryAt]
  by_cases hneg : index < 0
  · rw [if_pos hneg, nth_eq, Seq.elementAt_of_neg hneg]
    exact .pure (by simp)
  · rw [if_neg hneg]
    cases hget : v.get? index.toInt.toNat with
    | none =>
      rw [nth_eq, Seq.elementAt_of_length_le hneg (List.getElem?_eq_none_iff.1 hget)]
      exact .pure (by simp)
    | some y =>
      rw [nth_eq, Seq.elementAt_of_getElem? hneg hget]
      refine .bind (pair_returns (.int index) y) fun entry hentry => .pure ?_
      simp [hentry]

/-! ## Updating -/

theorem replace_eq (v : Vec) (xs : List Value) (w : World) :
    v.replace xs w = some (.ok ⟨⟨w.storages, xs⟩, v.info⟩,
      { w with storages := w.storages + 1 }) := rfl

/-- Different indices that are not negative are different places. -/
theorem toNat_ne {j : Int64} (hne : j ≠ index) (hj : ¬j < 0) (hindex : ¬index < 0) :
    index.toInt.toNat ≠ j.toInt.toNat := by
  intro h
  have hj' := Seq.toInt_of_nonneg hj
  have hindex' := Seq.toInt_of_nonneg hindex
  exact hne (Int64.toInt_inj.1 (by omega))

/-- Whatever the new elements are, they are known from what is at each place. -/
theorem assigned_of_getElem? (hindex : ¬index < 0) (hinfo : u.info = v.info)
    (hcount : u.count = max v.count (index.toInt.toNat + 1))
    (hsame : u.items[index.toInt.toNat]? = some x)
    (hother : ∀ i < v.count, i ≠ index.toInt.toNat → u.items[i]? = v.items[i]?) :
    v.Assigned index x u where
  nth_same := nth_eq_ok_iff.2 ⟨hindex, hsame⟩
  nth_other {j} hne hj hlt := by
    have hneg : ¬j < 0 := Int64.not_lt.2 hj
    have hplace : j.toInt.toNat < v.count := by
      have := Seq.toInt_of_nonneg hneg
      omega
    have hget : v.items[j.toInt.toNat]? = some _ := List.getElem?_eq_getElem hplace
    have hget' := hother _ hplace (toNat_ne hne hneg hindex).symm
    rw [nth_eq, nth_eq, Seq.elementAt_of_getElem? hneg hget,
      Seq.elementAt_of_getElem? hneg (hget'.trans hget)]
  count := hcount
  info := hinfo

theorem assigned_append (h : index.toInt = v.count) (hinfo : u.info = v.info)
    (hitems : u.items = v.items ++ [x]) : v.Assigned index x u := by
  have hindex : ¬index < 0 := by
    rw [Int64.lt_iff_toInt_lt, Int64.toInt_zero]
    omega
  have hplace : index.toInt.toNat = v.items.length := by
    rw [count] at h
    omega
  apply assigned_of_getElem? hindex hinfo
  · rw [count, count, hitems, hplace]
    simp
  · simp [hitems, hplace]
  · intro i hi _
    rw [hitems, List.getElem?_append_left hi]

theorem assigned_set (hindex : ¬index < 0) (hlt : index.toInt.toNat < v.count)
    (hinfo : u.info = v.info) (hitems : u.items = v.items.set index.toInt.toNat x) :
    v.Assigned index x u := by
  apply assigned_of_getElem? hindex hinfo
  · rw [count, hitems, List.length_set]
    exact (Nat.max_eq_left hlt).symm
  · rw [hitems, List.getElem?_set_self hlt]
  · intro i _ hne
    rw [hitems, List.getElem?_set_ne hne.symm]

/-- At an index up to the count an update gives a new vector in storage of its own. -/
theorem assocN_of_le (hindex : 0 ≤ index) (hle : index.toInt ≤ v.count) (x : Value) (w : World) :
    ∃ u, v.assocN index x w = some (.ok u, { w with storages := w.storages + 1 }) ∧
      u.block.storage = w.storages ∧ v.Assigned index x u := by
  by_cases hend : index.toInt = v.count
  · rw [assocN, if_pos hend]
    exact ⟨_, replace_eq v _ w, rfl, assigned_append hend rfl rfl⟩
  · have hneg : ¬index < 0 := Int64.not_lt.2 hindex
    have hlt : index.toInt.toNat < v.count := by
      have := Seq.toInt_of_nonneg hneg
      omega
    rw [assocN, if_neg hend, checkIndex_of_lt hneg hlt]
    exact ⟨_, replace_eq v _ w, rfl, assigned_set hneg hlt rfl rfl⟩

/-- Everywhere else it fails as reading does. -/
theorem assocN_of_not_le (h : ¬(0 ≤ index ∧ index.toInt ≤ v.count)) (x : Value) :
    ∃ e, v.nth index = .error e ∧ ∀ w, v.assocN index x w = some (.error e, w) := by
  have hend : index.toInt ≠ v.count := by
    intro hend
    apply h
    rw [Int64.le_iff_toInt_le, Int64.toInt_zero]
    omega
  by_cases hneg : index < 0
  · refine ⟨_, by rw [nth_eq, Seq.elementAt_of_neg hneg], fun w => ?_⟩
    rw [assocN, if_neg hend, checkIndex, if_pos hneg]
    rfl
  · have hlt : ¬index.toInt.toNat < v.count := by
      intro hlt
      exact h ⟨Int64.not_lt.1 hneg, by omega⟩
    refine ⟨_, by rw [nth_eq, Seq.elementAt_of_length_le hneg (Nat.le_of_not_lt hlt)], fun w => ?_⟩
    rw [assocN, if_neg hend, checkIndex, if_neg hneg, if_neg hlt]
    rfl

/-- A call, a walk along the vector or along any sequence with the same elements, and an entry give
what reading gives. An update succeeds exactly at the indices up to the count, in new storage so
that the vector stays what it was, and fails as reading does at all others. -/
theorem indexed_paths_agree (force : Force) (v : Vec) (index : Int64) (x : Value) :
    v.nth index = Seq.elementAt index v.items ∧
    (∀ n w, Machine.call (n + 1) (.vector v) [.int index] w = some (v.nth index, w)) ∧
    Settles (fun n => (v.seq.nth force n index).attempt) (· = v.nth index) ∧
    (∀ s : Seq, s.Eager → Forall₂ Copy s.items v.items →
      Settles (fun n => (s.nth force n index).attempt) (Alike Copy · (v.nth index))) ∧
    ((v.entryAt (.int index)).Returns fun entry =>
      (∀ y, entry.map items = some [.int index, y] ↔ v.nth index = .ok y) ∧
        (entry = none ↔ ∃ e, v.nth index = .error e)) ∧
    (0 ≤ index ∧ index.toInt ≤ v.count → ∀ w, ∃ u,
      v.assocN index x w = some (.ok u, { w with storages := w.storages + 1 }) ∧
        u.block.storage = w.storages ∧ v.Assigned index x u) ∧
    (¬(0 ≤ index ∧ index.toInt ≤ v.count) → ∃ e,
      v.nth index = .error e ∧ ∀ w, v.assocN index x w = some (.error e, w)) := by
  refine ⟨nth_eq v index, ?_, ?_, ?_, entryAt_returns v index, ?_, ?_⟩
  · intro n w
    rw [Machine.call]
    exact call_eq v index w
  · rw [nth_eq]
    exact Seq.nth_ofSlice_settles force _ _ _ index
  · intro s hs hitems
    rw [nth_eq]
    apply (Seq.nth_settles force hs index).mono
    intro r hr
    exact hr.trans (Seq.alike_elementAt hitems) fun _ _ _ => Copy.trans
  · rintro ⟨hindex, hle⟩ w
    exact assocN_of_le hindex hle x w
  · intro h
    exact assocN_of_not_le h x

/-- A vector with a lazy sequence in it, and a sequence that ends in an entry of a map. -/
theorem indexed_paths_agree_entry :
    let v : Vec := ⟨⟨7, [.seq (.lazy 0 .plain), .vector ⟨⟨8, [.int 1, .int 2]⟩, .plain⟩]⟩,
      .located ⟨4, 2⟩⟩
    let s : Seq := .cons 9 (.seq (.lazy 0 .plain)) (.entries 3 ⟨#[.int 1, .int 2], 0⟩ .plain) .plain
    let force : Force := fun _ => Run.exhausted
    (s.Eager ∧ Forall₂ Copy s.items v.items ∧ (0 ≤ (2 : Int64) ∧ (2 : Int64).toInt ≤ v.count) ∧
      ¬(0 ≤ (3 : Int64) ∧ (3 : Int64).toInt ≤ v.count)) ∧
    Settles (fun n => (s.nth force n 1).attempt) (Alike Copy · (v.nth 1)) ∧
    (∀ w, ∃ u, v.assocN 2 .nil w = some (.ok u, { w with storages := w.storages + 1 }) ∧
      u.block.storage = w.storages ∧ v.Assigned 2 .nil u) ∧
    ∃ e, v.nth 3 = .error e ∧ ∀ w, v.assocN 3 .nil w = some (.error e, w) := by
  intro v s force
  have hs : s.Eager := ⟨trivial, fun _ _ => ⟨trivial, trivial⟩⟩
  have hitems : Forall₂ Copy s.items v.items := .cons (.refl _) (.cons (.vector 0 8 _ _) .nil)
  have hend : 0 ≤ (2 : Int64) ∧ (2 : Int64).toInt ≤ v.count := by decide
  have hbeyond : ¬(0 ≤ (3 : Int64) ∧ (3 : Int64).toInt ≤ v.count) := by decide
  obtain ⟨-, -, -, hwalk, -⟩ := indexed_paths_agree force v 1 .nil
  obtain ⟨-, -, -, -, -, happend, -⟩ := indexed_paths_agree force v 2 .nil
  obtain ⟨-, -, -, -, -, -, hfail⟩ := indexed_paths_agree force v 3 .nil
  exact ⟨⟨hs, hitems, hend, hbeyond⟩, hwalk s hs hitems, happend hend, hfail hbeyond⟩

end Vec

end LispKernel
