import LispKernel.Run
import LispKernel.Value.Cast

/-!
# Vectors

Indexed access and update. An update makes a new vector with the information of the old one.
-/
namespace LispKernel.Vec

def ofList (items : List Value) : Run Vec := do
  return ⟨⟨← Run.freshStorage, items⟩, .plain⟩

/-- A two-element vector, which is what an entry of a map looks like from outside. -/
def pair (key value : Value) : Run Vec := ofList [key, value]

/-- The elements replaced, in new storage. -/
def replace (v : Vec) (items : List Value) : Run Vec := do
  return { v with block := ⟨← Run.freshStorage, items⟩ }

def get? (v : Vec) (n : Nat) : Option Value := v.items[n]?

/-- An index that does not fit names itself, and the length unless it is negative. -/
def checkIndex (v : Vec) (index : Int64) : Except Error Nat :=
  if index < 0 then .error (.indexOutOfRange index none)
  else if index.toInt.toNat < v.count then .ok index.toInt.toNat
  else .error (.indexOutOfRange index (some v.count))

def nth (v : Vec) (index : Int64) : Except Error Value := do
  match v.get? (← v.checkIndex index) with
  | some x => return x
  | none => throw (.indexOutOfRange index (some v.count))

def conj (v : Vec) (x : Value) : Run Vec := v.replace (v.items ++ [x])

/-- Replaces an element, or appends one at the index that equals the count. -/
def assocN (v : Vec) (index : Int64) (x : Value) : Run Vec :=
  if index.toInt = v.count then v.conj x
  else do v.replace (v.items.set (← Run.ofExcept (v.checkIndex index)) x)

def assoc (v : Vec) (key x : Value) : Run Vec :=
  match key with
  | .int index => v.assocN index x
  | key => .fail (.typeMismatch "Int" key.typeName (some "assoc"))

/-- The pair of an index and its element. -/
def entryAt (v : Vec) (key : Value) : Run (Option Vec) :=
  match key with
  | .int index =>
    if index < 0 then return none
    else
      match v.get? index.toInt.toNat with
      | some x => do return some (← pair key x)
      | none => return none
  | _ => return none

def call (v : Vec) : List Value → Run Value
  | [index] => .ofExcept (do v.nth (← index.asInt))
  | args => .fail (.arity (.exact 1) args.length (some "vector"))

end LispKernel.Vec
