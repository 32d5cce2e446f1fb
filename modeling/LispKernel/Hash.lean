import LispKernel.Hash.Mix
import LispKernel.Hash.Word
import LispKernel.Seq.Walk

/-!
# Hash codes

Equal values have equal hash codes. How a single thing is hashed is a parameter; a collection folds
the hash codes of its elements.
-/
namespace LispKernel

/-- A thing whose hash depends on nothing but which thing it is. -/
inductive Identity where
  | int (n : Int64)
  /-- One word for each class of equal doubles. -/
  | double (word : UInt64)
  | char (c : Char)
  | string (s : String)
  | keyword (k : Name)
  | symbol (s : Name)
  | var (cell : VarRef)
  | proc (code : NativeRef)
deriving DecidableEq

def Identity.hash : Identity → UInt32
  | int n => Hash.ofWords [n.toUInt64]
  | double word => Hash.ofWords [word]
  | char c => Hash.ofWords [c.val.toUInt64]
  | string s => Hash.ofString s
  | keyword k => name 1 k
  | symbol s => name 2 s
  | var cell => Hash.ofWords [3, UInt64.ofNat cell]
  | proc code => Hash.ofWords [4, UInt64.ofNat code]
where
  name (tag : UInt64) (n : Name) : UInt32 :=
    Hash.ofWords [tag, if n.ns.isSome then 1 else 0,
      Hash.ofBytes (n.ns.getD "").toUTF8.toList, Hash.ofBytes n.name.toUTF8.toList]

def Atom.hash (single : Identity → UInt32) : Atom → UInt32
  | nil => 0
  | bool b => if b then 1231 else 1237
  | int n => single (.int n)
  | double d => single (.double d.canonicalBits)
  | char c => single (.char c)
  | string s => single (.string s)
  | keyword k => single (.keyword k)
  | symbol s => single (.symbol s)
  | var v => single (.var v.cell)
  | proc p => single (.proc p.code)

namespace Seq

variable (force : Force)

def hashOrdered (hash : Value → Run UInt32) (n : Nat) (s : Seq) : Run UInt32 := do
  return (← s.fold force (fun t x => return t.ordered (← hash x)) n (Hash.Tally.seeded 1)).finish

def hashUnordered (hash : Value → Run UInt32) (seed : UInt32) (n : Nat) (s : Seq) : Run UInt32 := do
  return (← s.fold force (fun t x => return t.unordered (← hash x)) n
    (Hash.Tally.seeded seed)).finish

end Seq

namespace Value

variable (force : Force) (single : Identity → UInt32)

/-- An entry of a map hashes like the vector of its key and its value. -/
def hash : Nat → Value → Run UInt32
  | 0, _ => .exhausted
  | n + 1, v =>
    match v with
    | atom a => return a.hash single
    | vector v => do
      return (← v.items.foldlM (fun t x => return t.ordered (← hash n x))
        (Hash.Tally.seeded 1)).finish
    | map m => do
      let entry := fun (e : Value × Value) => do
        return (((Hash.Tally.seeded 1).ordered (← hash n e.1)).ordered (← hash n e.2)).finish
      return (← m.entries.foldlM (fun t e => return t.unordered (← entry e))
        (Hash.Tally.seeded 1)).finish
    | set s => do
      return (← s.items.foldlM (fun t x => return t.unordered (← hash n x))
        (Hash.Tally.seeded 0)).finish
    | seq s => s.hashOrdered force (hash n) n

end Value

end LispKernel
