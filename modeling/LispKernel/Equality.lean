import LispKernel.ElemSet

/-!
# Equality

Values are compared by what they hold. Vectors and sequences with equal elements in the same order
are equal however they are held, and maps and sets are equal whatever their order. Comparing may
realize lazy cells, and a failure to do so is the outcome of the comparison.
-/
namespace LispKernel

/-- Whether two lists of the same length agree element by element. -/
def Comparison.all (eq : Comparison) : List Value → List Value → Run Bool
  | x :: xs, y :: ys => do if ← eq x y then all eq xs ys else return false
  | _, _ => return true

def Vec.equal (eq : Comparison) (v other : Vec) : Run Bool :=
  if v.count ≠ other.count then return false else eq.all v.items other.items

namespace Value

variable (force : Force)

def equals : Nat → Value → Value → Run Bool
  | 0, _, _ => .exhausted
  | n + 1, a, b =>
    match a, b with
    | atom a, atom b => return a.equals b
    | vector v, vector other => v.equal (equals n) other
    | vector v, seq t => v.seq.equal force (equals n) n t
    | seq s, seq t => if s.same t then return true else s.equal force (equals n) n t
    | seq s, vector v => s.equal force (equals n) n v.seq
    | map m, map other => m.equal (equals n) other
    | set s, set other => s.equal (equals n) other
    | _, _ => return false

end Value

end LispKernel
