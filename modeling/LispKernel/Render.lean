import LispKernel.Double.Shortest
import LispKernel.Seq.Walk
import LispKernel.Text.Escape

/-!
# Rendering

Values as text, plain or escaped so that they read back. A collection shows at most as many elements
as the print length allows and then an ellipsis. The element behind the last one shown is still
pulled from a sequence, but whether that succeeds makes no difference.
-/
namespace LispKernel

def Atom.render (escape : Bool) : Atom → String
  | nil => "nil"
  | bool b => if b then "true" else "false"
  | int n => toString n.toInt
  | double d => toString d
  | char c => if escape then "\\" ++ Text.charName c else c.toString
  | string s => if escape then Text.quote s else s
  | keyword k => ":" ++ toString k
  | symbol s => toString s
  | var v => toString v
  | proc p => toString p

/-- The texts of the elements shown, and whether elements are left out. -/
structure Excerpt where
  pieces : List String
  more : Bool

namespace Excerpt

def cons (piece : String) (e : Excerpt) : Excerpt := { e with pieces := piece :: e.pieces }

/-- One space stands before the ellipsis if anything does. -/
def join (separator : String) (e : Excerpt) : String :=
  separator.intercalate e.pieces
    ++ (if e.more then (if e.pieces.isEmpty then "..." else " ...") else "")

/-- The first elements of a list, as many as the limit allows. -/
def ofList {α : Type} (write : α → Run String) : Option Nat → List α → Run Excerpt
  | _, [] => return ⟨[], false⟩
  | some 0, _ :: _ => return ⟨[], true⟩
  | limit, x :: xs => do
    let piece ← write x
    return (← ofList write (limit.map (· - 1)) xs).cons piece

variable (force : Force)

/-- The first elements of a sequence, as many as the limit allows. -/
def ofSeq (write : Value → Run String) : Nat → Option Nat → Seq → Run Excerpt
  | 0, _, _ => .exhausted
  | n + 1, limit, s => do
    match ← (s.next force n).attempt, limit with
    | .ok none, _ => return ⟨[], false⟩
    | _, some 0 => return ⟨[], true⟩
    | .error e, _ => .fail e
    | .ok (some (x, rest)), limit =>
      let piece ← write x
      return (← ofSeq write n (limit.map (· - 1)) rest).cons piece

end Excerpt

namespace Value

variable (force : Force)

def render (escape : Bool) : Nat → Value → Run String
  | 0, _ => .exhausted
  | n + 1, v => do
    let limit ← Run.gets World.printLength
    match v with
    | atom a => return a.render escape
    | vector v => return "[" ++ (← Excerpt.ofList (render escape n) limit v.items).join " " ++ "]"
    | map m =>
      let write := fun (entry : Value × Value) => do
        return (← render escape n entry.1) ++ " " ++ (← render escape n entry.2)
      return "\x7b" ++ (← Excerpt.ofList write limit m.entries).join ", " ++ "\x7d"
    | set s =>
      return "#\x7b" ++ (← Excerpt.ofList (render escape n) limit s.items).join " " ++ "\x7d"
    | seq s => return "(" ++ (← Excerpt.ofSeq force (render escape n) n limit s).join " " ++ ")"

/-- A text in every case: a value that cannot be rendered shows its error. -/
def display (escape : Bool) (n : Nat) (v : Value) : Run String := do
  match ← (v.render force escape n).attempt with
  | .ok text => return text
  | .error e => return "#<error: " ++ e.message ++ ">"

/-- The escaped text, except that names say what they are. -/
def debug (n : Nat) (v : Value) : Run String :=
  match v with
  | keyword k => return "Keyword(:" ++ toString k ++ ")"
  | symbol s => return "Symbol(" ++ toString s ++ ")"
  | v => v.display force true n

end Value

end LispKernel
