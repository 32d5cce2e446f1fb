/-!
# Qualified names

Keywords and symbols are names with an optional namespace. Two names are the same when both parts
are.
-/
namespace LispKernel

structure Name where
  ns : Option String := none
  name : String
deriving DecidableEq, Inhabited

namespace Name

/-- A text splits at its first slash, unless nothing stands before it or nothing behind it. -/
def parse (text : String) : Name :=
  let before := text.toList.takeWhile (· ≠ '/')
  match before, text.toList.dropWhile (· ≠ '/') with
  | _ :: _, _ :: c :: rest => ⟨some (String.ofList before), String.ofList (c :: rest)⟩
  | _, _ => ⟨none, text⟩

protected def toString : Name → String
  | ⟨some ns, name⟩ => ns ++ "/" ++ name
  | ⟨none, name⟩ => name

instance : ToString Name := ⟨Name.toString⟩

def unqualified (n : Name) : Name := ⟨none, n.name⟩

/-- A missing namespace comes before every namespace. -/
def compareNs : Option String → Option String → Ordering
  | none, none => .eq
  | none, some _ => .lt
  | some _, none => .gt
  | some a, some b => compare a b

/-- By namespace, then by name; texts are ordered by code points. -/
protected def compare (a b : Name) : Ordering :=
  (compareNs a.ns b.ns).then (compare a.name b.name)

instance : Ord Name := ⟨Name.compare⟩

def sort (names : List Name) : List Name :=
  names.mergeSort fun a b => (a.compare b).isLE

end Name

end LispKernel
