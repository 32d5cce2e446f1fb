import LispKernel.Vec

/-!
# Walking sequences

Every walk looks at a sequence for whether it is empty, for its first element and for its rest. Each
look realizes lazy cells, so it can fail and it changes the world; how a cell is realized is a
parameter. The walks take fuel, since a sequence may have no end.
-/
namespace LispKernel

/-- How lazy cells are realized. -/
abbrev Force := LazyRef → Run Seq

/-- A test of two values that may realize lazy cells. -/
abbrev Comparison := Value → Value → Run Bool

/-- A comparison that takes failures for differences. -/
def Comparison.lenient (eq : Comparison) : Comparison := fun a b => (eq a b).lenient

namespace Seq

/-- A new cell before a sequence, which is not looked at. -/
def prepend (x : Value) (s : Seq) : Run Seq := do
  return .cons (← Run.freshStorage) x s .plain

def ofArray (items : List Value) : Run Seq := do
  return .view .array (← Run.freshStorage) ⟨items.toArray, 0⟩ .plain

variable (force : Force)

def isEmpty : Nat → Seq → Run Bool
  | 0, _ => .exhausted
  | n + 1, lazy cell _ => do isEmpty n (← force cell)
  | _ + 1, empty _ => return true
  | _ + 1, cons .. => return false
  | _ + 1, view _ _ slice _ => return slice.count == 0
  | _ + 1, entries _ slice _ => return slice.count == 0

/-- Nil where nothing is left; an entry becomes a new vector each time. -/
def first : Nat → Seq → Run Value
  | 0, _ => .exhausted
  | n + 1, lazy cell _ => do first n (← force cell)
  | _ + 1, empty _ => return .nil
  | _ + 1, cons _ x _ _ => return x
  | _ + 1, view _ _ slice _ => return slice.first
  | _ + 1, entries _ slice _ =>
    match slice.first? with
    | some (key, value) => do return .vector (← Vec.pair key value)
    | none => return .nil

def rest : Nat → Seq → Run Seq
  | 0, _ => .exhausted
  | n + 1, lazy cell _ => do rest n (← force cell)
  | _ + 1, empty _ => return .empty .plain
  | _ + 1, cons _ _ rest _ => return rest
  | _ + 1, view kind storage slice _ => return ofSlice kind storage slice.rest
  | _ + 1, entries storage slice _ => return ofEntries storage slice.rest

/-- The first element and the rest, unless the sequence is empty. It is looked at three times. -/
def next (n : Nat) (s : Seq) : Run (Option (Value × Seq)) := do
  if ← s.isEmpty force n then return none
  else return some (← s.first force n, ← s.rest force n)

def second (n : Nat) (s : Seq) : Run Value := do (← s.rest force n).first force n

def third (n : Nat) (s : Seq) : Run Value := do (← s.rest force n).second force n

def fourth (n : Nat) (s : Seq) : Run Value := do (← s.rest force n).third force n

def fold {β : Type} (f : β → Value → Run β) : Nat → β → Seq → Run β
  | 0, _, _ => .exhausted
  | n + 1, b, s => do
    match ← s.next force n with
    | none => return b
    | some (x, rest) => fold f n (← f b x) rest

def toList (n : Nat) (s : Seq) : Run (List Value) := do
  return (← s.fold force (fun xs x => return x :: xs) n []).reverse

/-- Stops early at a rest that knows how long it is. -/
def countFrom : Nat → Nat → Seq → Run Nat
  | 0, _, _ => .exhausted
  | n + 1, seen, s =>
    match s.counted with
    | some k => return seen + k
    | none => do
      if ← s.isEmpty force n then return seen
      else countFrom n (seen + 1) (← s.rest force n)

def count (n : Nat) (s : Seq) : Run Nat := s.countFrom force n 0

def nthFrom (index : Int64) : Nat → Nat → Seq → Run Value
  | 0, _, _ => .exhausted
  | n + 1, walked, s => do
    if ← s.isEmpty force n then .fail (.indexOutOfRange index (some walked))
    else if walked = index.toInt then s.first force n
    else nthFrom index n (walked + 1) (← s.rest force n)

def nth (n : Nat) (s : Seq) (index : Int64) : Run Value :=
  if index < 0 then .fail (.indexOutOfRange index none) else s.nthFrom force index n 0

/-- The default stands in for every range error that comes without a position. -/
def tryNth (n : Nat) (s : Seq) (index : Int64) (default : Value) : Run Value := do
  match ← (s.nth force n index).attempt with
  | .error (.indexOutOfRange ..) => return default
  | r => .ofExcept r

/-- Both sequences move one step before either is looked at: where one has ended and the other has
not, they differ, even if the other failed. -/
def equal (eq : Comparison) : Nat → Seq → Seq → Run Bool
  | 0, _, _ => .exhausted
  | n + 1, s, t => do
    let a ← (s.next force n).attempt
    let b ← (t.next force n).attempt
    match a, b with
    | .ok none, .ok none => return true
    | .ok (some (x, s)), .ok (some (y, t)) => if ← eq x y then equal eq n s t else return false
    | .ok none, _ | _, .ok none => return false
    | .error e, _ | _, .error e => .fail e

/-- A walk from element to element. -/
structure Cursor where
  rest : Option Seq

def cursor (s : Seq) : Cursor := ⟨some s⟩

/-- The next element or the failure to get it, and the walk after it; a failure ends the walk. -/
def Cursor.next (n : Nat) : Cursor → Run (Option (Except Error Value) × Cursor)
  | ⟨none⟩ => return (none, ⟨none⟩)
  | ⟨some s⟩ => do
    match ← (s.next force n).attempt with
    | .ok none => return (none, ⟨none⟩)
    | .ok (some (x, rest)) => return (some (.ok x), ⟨some rest⟩)
    | .error e => return (some (.error e), ⟨none⟩)

end Seq

/-- The elements of a value in order, for values that have elements. -/
def Value.seq? : Value → Run (Option Seq)
  | .nil => return some (.empty .plain)
  | .string "" => return some (.empty .plain)
  | .string s => return some (← Seq.ofArray (s.toList.map Value.char))
  | .vector v => return some v.seq
  | .map m => return some m.seq
  | .set s => return some s.seq
  | .seq s => return some s
  | _ => return none

end LispKernel
