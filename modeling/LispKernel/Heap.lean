/-!
# Heaps

A heap holds numbered cells. Cells are added at the end, may be overwritten and are never removed.
-/
namespace LispKernel

structure Heap (α : Type) where
  cells : Array α := #[]
deriving Inhabited

namespace Heap

variable {α : Type}

def size (h : Heap α) : Nat := h.cells.size

def get? (h : Heap α) (i : Nat) : Option α := h.cells[i]?

/-- The new cell has the number `h.size`. -/
def push (h : Heap α) (a : α) : Heap α := ⟨h.cells.push a⟩

/-- No effect outside the heap. -/
def set (h : Heap α) (i : Nat) (a : α) : Heap α := ⟨h.cells.setIfInBounds i a⟩

@[simp] theorem size_push (h : Heap α) (a : α) : (h.push a).size = h.size + 1 := by
  simp [size, push]

@[simp] theorem size_set (h : Heap α) (i : Nat) (a : α) : (h.set i a).size = h.size := by
  simp [size, set]

theorem lt_size_of_get? {h : Heap α} {i : Nat} {a : α} (hi : h.get? i = some a) : i < h.size :=
  (Array.getElem?_eq_some_iff.1 hi).1

theorem get?_push (h : Heap α) (a : α) (i : Nat) :
    (h.push a).get? i = if i = h.size then some a else h.get? i :=
  Array.getElem?_push

theorem get?_set (h : Heap α) (i j : Nat) (a : α) :
    (h.set i a).get? j = if i = j ∧ i < h.size then some a else h.get? j := by
  have := @Array.getElem?_setIfInBounds α h.cells i j a
  unfold get? set size
  rw [this]
  by_cases hij : i = j <;> by_cases hi : i < h.cells.size <;> simp_all

theorem ext_get? {h h' : Heap α} (hcells : ∀ i, h.get? i = h'.get? i) : h = h' := by
  cases h
  cases h'
  exact congrArg mk (Array.ext_getElem? hcells)

theorem get?_set_map {h : Heap α} {i : Nat} {a : α} (hi : h.get? i = some a) (f : α → α) (j : Nat) :
    (h.set i (f a)).get? j = if i = j then (h.get? j).map f else h.get? j := by
  have hlt := lt_size_of_get? hi
  by_cases hj : i = j
  · simp [get?_set, ← hj, hlt, hi]
  · simp [get?_set, hj]

theorem set_push (h : Heap α) (a b : α) : (h.push a).set h.size b = h.push b := by
  unfold set push size
  congr 1
  grind

theorem get?_eq_none_iff {h : Heap α} {i : Nat} : h.get? i = none ↔ h.size ≤ i :=
  Array.getElem?_eq_none_iff

end Heap

end LispKernel
