import LispKernel.Expr

/-!
# Nodes of an expression

An expression is a tree of nodes, each on a level. The height of a tree is the number of its levels.
Symbols and definitions anywhere in a tree are what evaluation may look up and what it may define.
-/
namespace LispKernel.Expr

def children : Expr → List Expr
  | literal .. | ref .. | symbol .. => []
  | vector items _ | set items _ | block items _ => items
  | map entries _ => entries.flatMap fun e => [e.1, e.2]
  | define _ value metadata _ => value.toList ++ metadata.toList
  | annotate metadata body _ => [metadata, body]
  | call callee args _ => callee :: args
  | branch condition positive negative _ => condition :: positive :: negative.toList

/-- A node stands on a level of the tree; the root is on the first. -/
inductive At : Expr → Nat → Expr → Prop where
  | root (x : Expr) : At x 1 x
  | child {x y node : Expr} {l : Nat} : y ∈ x.children → At y l node → At x (l + 1) node

/-- The symbol stands for itself somewhere in the tree. -/
def Mentions (x : Expr) (name : Name) : Prop := ∃ l p, x.At l (symbol name p)

/-- The cell is that of a var which is defined somewhere in the tree. -/
def Defines (x : Expr) (cell : VarRef) : Prop :=
  ∃ l v value metadata p, x.At l (define v value metadata p) ∧ v.cell = cell

theorem Mentions.child {x y : Expr} {name : Name} (hy : y ∈ x.children) (h : y.Mentions name) :
    x.Mentions name := by
  obtain ⟨l, p, hnode⟩ := h
  exact ⟨l + 1, p, .child hy hnode⟩

/-! ## Height -/

theorem sizeOf_lt_of_mem_children {x y : Expr} (h : y ∈ x.children) : sizeOf y < sizeOf x := by
  have hoption {o : Option Expr} (hy : o = some y) : sizeOf y < sizeOf o := by
    rw [hy]
    simp
  cases x <;> simp only [children, List.not_mem_nil, List.mem_cons, List.mem_append,
    List.mem_flatMap, Option.mem_toList, or_false] at h
  case vector items p =>
    have := List.sizeOf_lt_of_mem h
    simp only [vector.sizeOf_spec]
    omega
  case set items p =>
    have := List.sizeOf_lt_of_mem h
    simp only [set.sizeOf_spec]
    omega
  case block items p =>
    have := List.sizeOf_lt_of_mem h
    simp only [block.sizeOf_spec]
    omega
  case map entries p =>
    obtain ⟨⟨key, value⟩, he, hy⟩ := h
    have := List.sizeOf_lt_of_mem he
    simp only [map.sizeOf_spec, Prod.mk.sizeOf_spec] at *
    rcases hy with rfl | rfl <;> omega
  case define v value metadata p =>
    simp only [define.sizeOf_spec]
    rcases h with hy | hy <;> have := hoption hy <;> omega
  case annotate metadata body p =>
    simp only [annotate.sizeOf_spec]
    rcases h with rfl | rfl <;> omega
  case call callee args p =>
    simp only [call.sizeOf_spec]
    rcases h with rfl | hy
    · omega
    · have := List.sizeOf_lt_of_mem hy
      omega
  case branch condition positive negative p =>
    simp only [branch.sizeOf_spec]
    rcases h with rfl | rfl | hy
    · omega
    · omega
    · have := hoption hy
      omega

/-- The number of nodes on the longest way from the root to a leaf. -/
def height (x : Expr) : Nat :=
  (x.children.attach.map fun y => height y.1).foldr max 0 + 1
termination_by sizeOf x
decreasing_by exact sizeOf_lt_of_mem_children y.2

theorem height_eq (x : Expr) : x.height = (x.children.map height).foldr max 0 + 1 := by
  rw [height, List.attach_map_val]

theorem height_lt_of_mem_children {x y : Expr} (h : y ∈ x.children) : y.height < x.height := by
  have hmax {l : List Expr} (hy : y ∈ l) : y.height ≤ (l.map height).foldr max 0 := by
    induction l with
    | nil => cases hy
    | cons z zs ih =>
      rw [List.map_cons, List.foldr_cons]
      rcases List.mem_cons.1 hy with rfl | hy
      · exact Nat.le_max_left _ _
      · exact Nat.le_trans (ih hy) (Nat.le_max_right _ _)
  rw [x.height_eq]
  exact Nat.lt_succ_of_le (hmax h)

theorem At.level_le_height {x node : Expr} {l : Nat} (h : x.At l node) : l ≤ x.height := by
  induction h with
  | root x =>
    rw [x.height_eq]
    omega
  | child hy _ ih =>
    have := height_lt_of_mem_children hy
    omega

end LispKernel.Expr
