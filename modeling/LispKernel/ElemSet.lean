import LispKernel.Dict

/-!
# Sets

Sets are scanned in the order of insertion with a comparison given as a parameter.
-/
namespace LispKernel.ElemSet

def new : Run ElemSet := do return ⟨⟨← Run.freshStorage, []⟩, .plain⟩

/-- The elements replaced, in new storage. -/
def replace (s : ElemSet) (items : List Value) : Run ElemSet := do
  return { s with block := ⟨← Run.freshStorage, items⟩ }

/-- Whether the test holds of an element, asked from left to right. -/
def anyM (p : Value → Run Bool) : List Value → Run Bool
  | [] => return false
  | x :: xs => do if ← p x then return true else anyM p xs

def tryContains (eq : Comparison) (s : ElemSet) (x : Value) : Run Bool :=
  anyM (fun item => eq item x) s.items

def contains (eq : Comparison) (s : ElemSet) (x : Value) : Run Bool :=
  s.tryContains eq.lenient x

/-- The set with one more element, or nothing if it has an equal one. -/
def add? (eq : Comparison) (s : ElemSet) (x : Value) : Run (Option ElemSet) := do
  if ← s.tryContains eq x then return none
  else return some (← s.replace (s.items ++ [x]))

def conj (eq : Comparison) (s : ElemSet) (x : Value) : Run ElemSet := do
  if ← s.contains eq x then return s else s.replace (s.items ++ [x])

def ofList (eq : Comparison) (items : List Value) : Run ElemSet := do
  items.foldlM (fun s x => s.conj eq x) (← new)

def disj (eq : Comparison) (s : ElemSet) (x : Value) : Run ElemSet := do
  s.replace (← Run.reject (fun item => (eq item x).lenient) s.items)

/-- Whether each element is equal to one of the other set. -/
def within (eq : Comparison) (other : ElemSet) : List Value → Run Bool
  | [] => return true
  | x :: xs => do if ← anyM (eq x) other.items then within eq other xs else return false

def equal (eq : Comparison) (s other : ElemSet) : Run Bool :=
  if s.count ≠ other.count then return false else within eq other s.items

/-- A set is called with a value and answers it if it has an equal element. -/
def call (eq : Comparison) (s : ElemSet) : List Value → Run Value
  | [x] => do return if ← s.tryContains eq x then x else .nil
  | args => .fail (.arity (.exact 1) args.length (some "set"))

end LispKernel.ElemSet
