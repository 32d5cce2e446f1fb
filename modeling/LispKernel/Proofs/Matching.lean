import Mathlib.Data.List.Forall2
import Mathlib.Data.List.Perm.Basic

/-!
# Matchings of lists

Two lists match if their elements can be paired off, in whatever order, so that every pair is
related. A one-way search that never lands on the same element twice matches lists of equal length.
-/
namespace LispKernel

open List (Forall₂ Perm)

variable {α β γ : Type} {R S : α → β → Prop}

theorem forall₂_comp {T : β → γ → Prop} {xs : List α} {ys : List β} {zs : List γ}
    (h₁ : Forall₂ R xs ys) (h₂ : Forall₂ T ys zs) :
    Forall₂ (fun x z => ∃ y, R x y ∧ T y z) xs zs := by
  induction h₁ generalizing zs with
  | nil =>
    cases h₂
    exact .nil
  | cons hxy _ ih =>
    cases h₂ with
    | cons hyz hzs => exact .cons ⟨_, hxy, hyz⟩ (ih hzs)

theorem forall₂_mono_mem {xs : List α} {ys : List β} (h : Forall₂ R xs ys)
    (hS : ∀ x ∈ xs, ∀ y ∈ ys, R x y → S x y) : Forall₂ S xs ys := by
  induction h with
  | nil => exact .nil
  | cons hxy _ ih =>
    refine .cons (hS _ (by simp) _ (by simp) hxy) (ih ?_)
    exact fun x hx y hy => hS x (by simp [hx]) y (by simp [hy])

theorem isEqv_iff_forall₂ {p : α → α → Bool} {xs ys : List α} :
    xs.isEqv ys p = true ↔ Forall₂ (fun x y => p x y = true) xs ys := by
  induction xs generalizing ys with
  | nil => cases ys <;> simp [List.isEqv]
  | cons x xs ih => cases ys <;> simp [List.isEqv, ih]

/-- The elements of both lists can be paired off so that every pair is related. -/
def Matching (R : α → β → Prop) (xs : List α) (ys : List β) : Prop :=
  ∃ zs, zs.Perm ys ∧ Forall₂ R xs zs

namespace Matching

variable {xs : List α} {ys : List β}

theorem length_eq (h : Matching R xs ys) : xs.length = ys.length := by
  obtain ⟨zs, hp, hz⟩ := h
  exact hz.length_eq.trans hp.length_eq

theorem exists_right (h : Matching R xs ys) {x : α} (hx : x ∈ xs) : ∃ y ∈ ys, R x y := by
  obtain ⟨zs, hp, hz⟩ := h
  have key : ∃ y ∈ zs, R x y := by
    clear hp
    induction hz with
    | nil => cases hx
    | cons hxy _ ih =>
      rcases List.mem_cons.1 hx with rfl | hx
      · exact ⟨_, by simp, hxy⟩
      · obtain ⟨y, hy, hxy⟩ := ih hx
        exact ⟨y, by simp [hy], hxy⟩
  obtain ⟨y, hy, hxy⟩ := key
  exact ⟨y, hp.mem_iff.1 hy, hxy⟩

theorem mono_mem (h : Matching R xs ys) (hS : ∀ x ∈ xs, ∀ y ∈ ys, R x y → S x y) :
    Matching S xs ys := by
  obtain ⟨zs, hp, hz⟩ := h
  exact ⟨zs, hp, forall₂_mono_mem hz fun x hx y hy => hS x hx y (hp.mem_iff.1 hy)⟩

theorem symm (h : Matching R xs ys) : Matching (fun y x => R x y) ys xs := by
  obtain ⟨zs, hp, hz⟩ := h
  have hflip : Forall₂ (fun y x => R x y) zs xs := List.Forall₂.flip hz
  obtain ⟨us, hu, hus⟩ := List.perm_comp_forall₂ hp.symm hflip
  exact ⟨us, hus, hu⟩

theorem trans {T : β → γ → Prop} {zs : List γ} (h₁ : Matching R xs ys) (h₂ : Matching T ys zs) :
    Matching (fun x z => ∃ y, R x y ∧ T y z) xs zs := by
  obtain ⟨us, hu, hxu⟩ := h₁
  obtain ⟨vs, hv, hyv⟩ := h₂
  obtain ⟨ts, huts, htv⟩ := List.perm_comp_forall₂ hu hyv
  exact ⟨ts, htv.trans hv, forall₂_comp hxu huts⟩

/-- If every element has a partner and no partner serves two elements, then the partners are some of
the elements of the second list. -/
theorem subperm_of_search (hex : ∀ x ∈ xs, ∃ y ∈ ys, R x y)
    (hinj : xs.Pairwise fun x x' => ∀ y ∈ ys, R x y → ¬ R x' y) :
    ∃ zs, zs.Subperm ys ∧ Forall₂ R xs zs := by
  induction xs generalizing ys with
  | nil => exact ⟨[], List.nil_subperm, .nil⟩
  | cons x xs ih =>
    obtain ⟨hx, hxs⟩ := List.pairwise_cons.1 hinj
    obtain ⟨y, hy, hxy⟩ := hex x (by simp)
    obtain ⟨us, vs, rfl⟩ := List.append_of_mem hy
    -- The partner of `x` is taken out; the others keep theirs, since it is not theirs.
    have hrest : ∃ zs, zs.Subperm (us ++ vs) ∧ Forall₂ R xs zs := by
      apply ih
      · intro x' hx'
        obtain ⟨y', hy', hxy'⟩ := hex x' (by simp [hx'])
        refine ⟨y', ?_, hxy'⟩
        rcases List.mem_append.1 hy' with h | h
        · exact List.mem_append.2 (.inl h)
        · rcases List.mem_cons.1 h with rfl | h
          · exact absurd hxy' (hx x' hx' _ hy hxy)
          · exact List.mem_append.2 (.inr h)
      · refine hxs.imp fun {a b} h y' hy' => h y' ?_
        rcases List.mem_append.1 hy' with h | h <;> simp [h]
    obtain ⟨zs, hp, hz⟩ := hrest
    have hcons : (y :: zs).Subperm (y :: (us ++ vs)) := (List.subperm_cons y).2 hp
    exact ⟨y :: zs, hcons.trans List.perm_middle.symm.subperm, .cons hxy hz⟩

theorem length_le_of_search (hex : ∀ x ∈ xs, ∃ y ∈ ys, R x y)
    (hinj : xs.Pairwise fun x x' => ∀ y ∈ ys, R x y → ¬ R x' y) : xs.length ≤ ys.length := by
  obtain ⟨zs, hp, hz⟩ := subperm_of_search hex hinj
  exact hz.length_eq ▸ hp.length_le

/-- If moreover the lists are equally long, then nobody is left over. -/
theorem of_search (hlen : xs.length = ys.length) (hex : ∀ x ∈ xs, ∃ y ∈ ys, R x y)
    (hinj : xs.Pairwise fun x x' => ∀ y ∈ ys, R x y → ¬ R x' y) : Matching R xs ys := by
  obtain ⟨zs, hp, hz⟩ := subperm_of_search hex hinj
  exact ⟨zs, hp.perm_of_length_le (Nat.le_of_eq (hlen.symm.trans hz.length_eq)), hz⟩

end Matching

end LispKernel
