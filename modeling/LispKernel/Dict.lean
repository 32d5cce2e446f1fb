import LispKernel.Seq.Walk

/-!
# Maps

Maps are scanned in the order of insertion with a comparison given as a parameter. Operations that
cannot fail take a failed comparison for a difference; those that can fail pass the failure on.
-/
namespace LispKernel

/-- The elements for which the test is false, tested from left to right. -/
def Run.reject {α : Type} (p : α → Run Bool) : List α → Run (List α)
  | [] => return []
  | x :: xs => do
    let drop ← p x
    let rest ← reject p xs
    return if drop then rest else x :: rest

namespace Dict

def new : Run Dict := do return ⟨← Run.freshStorage, [], .plain⟩

/-- The place of the first entry whose key is equal to the given one. -/
def indexOf (eq : Comparison) (key : Value) : List (Value × Value) → Run (Option Nat)
  | [] => return none
  | (k, _) :: rest => do
    if ← eq k key then return some 0
    else return (← indexOf eq key rest).map (· + 1)

def valueAt? (m : Dict) (i : Nat) : Option Value := m.entries[i]?.map Prod.snd

def tryGet (eq : Comparison) (m : Dict) (key : Value) : Run (Option Value) := do
  return (← indexOf eq key m.entries).bind m.valueAt?

def get (eq : Comparison) (m : Dict) (key : Value) : Run (Option Value) :=
  m.tryGet eq.lenient key

def containsKey (eq : Comparison) (m : Dict) (key : Value) : Run Bool := do
  return (← m.get eq key).isSome

/-- The entries replaced, in new storage. -/
def replace (m : Dict) (entries : List (Value × Value)) : Run Dict := do
  return { m with storage := ← Run.freshStorage, entries }

/-- An entry with an equal key keeps its place and its key, a new one goes to the end. -/
def set (eq : Comparison) (m : Dict) (key value : Value) : Run Dict := do
  match ← indexOf eq.lenient key m.entries with
  | some i => m.replace (m.entries.modify i fun entry => (entry.1, value))
  | none => m.replace (m.entries ++ [(key, value)])

/-- The map with one more entry, or nothing if an entry has an equal key. -/
def add? (eq : Comparison) (m : Dict) (key value : Value) : Run (Option Dict) := do
  match ← indexOf eq key m.entries with
  | some _ => return none
  | none => return some (← m.replace (m.entries ++ [(key, value)]))

/-- Drops position and metadata. -/
def detached (m : Dict) : Dict := { m with info := .plain }

def assoc (eq : Comparison) (m : Dict) (key value : Value) : Run Dict :=
  m.detached.set eq key value

/-- Each entry of a list set in turn. -/
def setAll (eq : Comparison) (m : Dict) (entries : List (Value × Value)) : Run Dict :=
  entries.foldlM (fun m entry => m.set eq entry.1 entry.2) m

def ofList (eq : Comparison) (entries : List (Value × Value)) : Run Dict := do
  (← new).setAll eq entries

def without (eq : Comparison) (m : Dict) (key : Value) : Run Dict := do
  m.detached.replace (← Run.reject (fun entry => (eq entry.1 key).lenient) m.entries)

/-- The entries of the second map set over the first; a map merged with an empty one stays as it
is. -/
def merge (eq : Comparison) (m other : Dict) : Run Dict :=
  if other.isEmpty then return m
  else if m.isEmpty then return other
  else m.detached.setAll eq other.entries

def mergeOption (eq : Comparison) : Option Dict → Option Dict → Run (Option Dict)
  | some m, some other => return some (← m.merge eq other)
  | some m, none => return some m
  | none, other => return other

def conj (eq : Comparison) (m : Dict) : Value → Run Dict
  | .vector v =>
    match v.items with
    | [key, value] => m.assoc eq key value
    | _ => .fail (.invalidArgument
        "Vector argument to map's conj must be a vector with two elements")
  | .map other => m.merge eq other
  | _ => .fail (.invalidArgument
      "Argument to map's conj must be a vector with two elements or a map")

/-- The first element and every second one after it. -/
def everySecond : List Value → List Value
  | x :: _ :: rest => x :: everySecond rest
  | rest => rest

def keys (m : Dict) : Run Seq := Seq.ofArray (everySecond m.flatten)

def vals (m : Dict) : Run Seq := Seq.ofArray (everySecond (m.flatten.drop 1))

/-- The entries, a view even where there are none. -/
def entrySeq (m : Dict) : Seq := .entries m.storage ⟨m.flatten.toArray, 0⟩ .plain

/-- Keys and values in turn, in the storage of the map. -/
def flatSeq (m : Dict) : Seq := .view .array m.storage ⟨m.flatten.toArray, 0⟩ .plain

/-- The pair of the given key and the value under it. -/
def entryAt (eq : Comparison) (m : Dict) (key : Value) : Run (Option Vec) := do
  match ← m.get eq key with
  | some value => return some (← Vec.pair key value)
  | none => return none

/-- A map is called with a key and, if wanted, what to answer for an absent key. -/
def call (eq : Comparison) (m : Dict) : List Value → Run Value
  | [key] => do return (← m.tryGet eq key).getD .nil
  | [key, default] => do return (← m.tryGet eq key).getD default
  | args => .fail (.arity (.range 1 2) args.length (some "map"))

/-- Whether each entry has its key, with an equal value, in the other map. -/
def within (eq : Comparison) (other : Dict) : List (Value × Value) → Run Bool
  | [] => return true
  | (key, value) :: rest => do
    match ← other.get eq key with
    | some found => if ← eq found value then within eq other rest else return false
    | none => return false

/-- The same storage is equal to itself without a look at the entries. -/
def equal (eq : Comparison) (m other : Dict) : Run Bool :=
  if m.same other then return true
  else if m.count ≠ other.count then return false
  else within eq other m.entries

/-- A place in the keys and values in turn, from which on the entries are still to come. -/
structure Cursor where
  buffer : List Value
  place : Nat

def cursor (m : Dict) : Cursor := ⟨m.flatten, 0⟩

/-- The entry at the place, unless fewer than two values are left. -/
def Cursor.next? (c : Cursor) : Option ((Value × Value) × Cursor) :=
  match c.buffer[c.place]?, c.buffer[c.place + 1]? with
  | some key, some value => some ((key, value), { c with place := c.place + 2 })
  | _, _ => none

/-- A lower and an upper bound for the number of entries to come. -/
def Cursor.sizeHint (c : Cursor) : Nat × Option Nat :=
  let left := (c.buffer.length - c.place) / 2
  (left, some left)

end Dict

end LispKernel
