import LispKernel.Value

/-!
# Expressions

Expressions as a reader delivers them, each with the position it was read from.
-/
namespace LispKernel

inductive Expr where
  | literal (value : Value) (pos : Position)
  /-- A var that is known already. -/
  | ref (var : Var) (pos : Position)
  /-- A symbol that is resolved when it is evaluated. -/
  | symbol (name : Name) (pos : Position)
  | vector (items : List Expr) (pos : Position)
  | map (entries : List (Expr × Expr)) (pos : Position)
  | set (items : List Expr) (pos : Position)
  | define (var : Var) (value metadata : Option Expr) (pos : Position)
  | annotate (metadata body : Expr) (pos : Position)
  | call (callee : Expr) (args : List Expr) (pos : Position)
  | block (body : List Expr) (pos : Position)
  | branch (condition positive : Expr) (negative : Option Expr) (pos : Position)

namespace Expr

instance : Inhabited Expr := ⟨literal .nil ⟨0, 0⟩⟩

def position : Expr → Position
  | literal _ p | ref _ p | symbol _ p | vector _ p | map _ p | set _ p | define _ _ _ p
  | annotate _ _ p | call _ _ p | block _ p | branch _ _ _ p => p

end Expr

end LispKernel
