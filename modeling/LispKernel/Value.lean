import LispKernel.Name
import LispKernel.Error
import LispKernel.Double

/-!
# Values

A value is an atom, a vector, a map, a set or a sequence. Collections carry the number of the
storage that holds their elements: reading, copying and annotating a collection keep the number,
building one takes a new number. Collections also carry a position and metadata, which take no part
in what the value is.
-/
namespace LispKernel

/-- The number of a piece of storage. -/
abbrev Storage := Nat

abbrev LazyRef := Nat
abbrev VarRef := Nat
abbrev NativeRef := Nat

/-- A named cell, the same as another var exactly when the cells are the same. -/
structure Var where
  ns : Option String
  name : Name
  cell : VarRef
deriving DecidableEq, Inhabited

namespace Var

def qualified (v : Var) : String :=
  match v.ns with
  | some ns => ns ++ "/" ++ toString v.name
  | none => toString v.name

protected def toString (v : Var) : String := "#'" ++ v.qualified

instance : ToString Var := ⟨Var.toString⟩

def same (v other : Var) : Bool := v.cell == other.cell

end Var

/-- A named native procedure, the same as another exactly when the code is the same. -/
structure Proc where
  name : String
  code : NativeRef
deriving DecidableEq, Inhabited

namespace Proc

protected def toString (p : Proc) : String := "#<proc " ++ p.name ++ ">"

instance : ToString Proc := ⟨Proc.toString⟩

def same (p other : Proc) : Bool := p.code == other.code

end Proc

/-- A value without parts. -/
inductive Atom where
  | nil
  | bool (b : Bool)
  | int (n : Int64)
  | double (d : Double)
  | char (c : Char)
  | string (s : String)
  | keyword (k : Name)
  | symbol (s : Name)
  | var (v : Var)
  | proc (p : Proc)
deriving DecidableEq, Inhabited

/-- What a view was made from. -/
inductive ViewKind where
  | array
  | vector
deriving DecidableEq

mutual

inductive Value where
  | atom (a : Atom)
  | vector (v : Vec)
  | map (m : Dict)
  | set (s : ElemSet)
  | seq (s : Seq)

/-- A sequence: the empty list, an element before another sequence, a view of an array or a vector
from some index on, a view of the entries of a map from some index on, or a lazy cell. -/
inductive Seq where
  | empty (info : Info)
  | cons (cell : Storage) (first : Value) (rest : Seq) (info : Info)
  | view (kind : ViewKind) (storage : Storage) (slice : Slice) (info : Info)
  | entries (storage : Storage) (slice : EntrySlice) (info : Info)
  | lazy (cell : LazyRef) (info : Info)

/-- The elements of a buffer from an index on. -/
structure Slice where
  buffer : Array Value
  index : Nat

/-- The entries in a buffer of keys and values in turn, from the index of a key on. -/
structure EntrySlice where
  buffer : Array Value
  index : Nat

/-- Elements in one piece of storage. -/
structure Block where
  storage : Storage
  items : List Value

structure Vec where
  block : Block
  info : Info

/-- Distinct elements in the order of their insertion. -/
structure ElemSet where
  block : Block
  info : Info

/-- Entries with distinct keys in the order of their insertion. -/
structure Dict where
  storage : Storage
  entries : List (Value × Value)
  info : Info

/-- Where a collection was read, and its metadata. -/
structure Info where
  position : Option Position
  metadata : Option Dict

end

namespace Info

def plain : Info := ⟨none, none⟩

def located (p : Position) : Info := ⟨some p, none⟩

instance : Inhabited Info := ⟨plain⟩

end Info

namespace Vec

def items (v : Vec) : List Value := v.block.items

def count (v : Vec) : Nat := v.items.length

end Vec

namespace ElemSet

def items (s : ElemSet) : List Value := s.block.items

def count (s : ElemSet) : Nat := s.items.length

end ElemSet

namespace Dict

def count (m : Dict) : Nat := m.entries.length

def isEmpty (m : Dict) : Bool := m.entries.isEmpty

/-- Keys and values in turn, which is what the storage holds. -/
def flatten (m : Dict) : List Value := m.entries.flatMap fun entry => [entry.1, entry.2]

/-- Whether two maps are in the same storage. -/
def same (m other : Dict) : Bool := m.storage == other.storage

end Dict

namespace Value

@[match_pattern] abbrev nil : Value := .atom .nil
@[match_pattern] abbrev bool (b : Bool) : Value := .atom (.bool b)
@[match_pattern] abbrev int (n : Int64) : Value := .atom (.int n)
@[match_pattern] abbrev double (d : Double) : Value := .atom (.double d)
@[match_pattern] abbrev char (c : Char) : Value := .atom (.char c)
@[match_pattern] abbrev string (s : String) : Value := .atom (.string s)
@[match_pattern] abbrev keyword (k : Name) : Value := .atom (.keyword k)
@[match_pattern] abbrev symbol (s : Name) : Value := .atom (.symbol s)
@[match_pattern] abbrev var (v : Var) : Value := .atom (.var v)
@[match_pattern] abbrev proc (p : Proc) : Value := .atom (.proc p)

instance : Inhabited Value := ⟨nil⟩

end Value

def Atom.typeName : Atom → String
  | nil => "Nil"
  | bool _ => "Bool"
  | int _ => "Int"
  | double _ => "Double"
  | char _ => "Char"
  | string _ => "String"
  | keyword _ => "Keyword"
  | symbol _ => "Symbol"
  | var _ => "Var"
  | proc _ => "Proc"

/-- Doubles compare as numbers, vars and procs by identity. -/
def Atom.equals : Atom → Atom → Bool
  | double a, double b => a.equals b
  | var a, var b => a.same b
  | proc a, proc b => a.same b
  | a, b => a == b

namespace Slice

/-- Nothing is left behind the end. -/
def count (s : Slice) : Nat := s.buffer.size - s.index

/-- Nil where nothing is left. -/
def first (s : Slice) : Value := s.buffer[s.index]?.getD .nil

def rest (s : Slice) : Slice := { s with index := s.index + 1 }

def toList (s : Slice) : List Value := s.buffer.toList.drop s.index

def map {β : Type} (f : Value → β) (s : Slice) : List β := s.toList.map f

end Slice

namespace EntrySlice

def count (s : EntrySlice) : Nat := (s.buffer.size - s.index) / 2

/-- The two values from the index on, if there are two. -/
def first? (s : EntrySlice) : Option (Value × Value) :=
  match s.buffer[s.index]?, s.buffer[s.index + 1]? with
  | some key, some value => some (key, value)
  | _, _ => none

def rest (s : EntrySlice) : EntrySlice := { s with index := s.index + 2 }

/-- Two values at a time; a last key without a value makes no entry. -/
def pairUp : List Value → List (Value × Value)
  | key :: value :: rest => (key, value) :: pairUp rest
  | _ => []

/-- Keys and values in turn from the index on. -/
def flat (s : EntrySlice) : List Value := s.buffer.toList.drop s.index

def toList (s : EntrySlice) : List (Value × Value) := pairUp s.flat

def map {β : Type} (f : Value × Value → β) (s : EntrySlice) : List β := s.toList.map f

end EntrySlice

namespace Seq

def typeName : Seq → String
  | empty _ => "EmptyList"
  | cons .. => "ConsSeq"
  | view .array .. => "ArraySeq"
  | view .vector .. => "VectorSeq"
  | entries .. => "ArrayMapSeq"
  | lazy .. => "LazySeq"

def info : Seq → Info
  | empty info | cons _ _ _ info | view _ _ _ info | entries _ _ info | lazy _ info => info

def withInfo (info : Info) : Seq → Seq
  | empty _ => empty info
  | cons cell first rest _ => cons cell first rest info
  | view kind storage slice _ => view kind storage slice info
  | entries storage slice _ => entries storage slice info
  | lazy cell _ => lazy cell info

/-- The number of elements, where no walk is needed to know it. -/
def counted : Seq → Option Nat
  | empty _ => some 0
  | view _ _ slice _ => some slice.count
  | entries _ slice _ => some slice.count
  | cons .. | lazy .. => none

/-- Whether two sequences are the same view of the same storage. -/
def same : Seq → Seq → Bool
  | empty _, empty _ => true
  | cons a _ _ _, cons b _ _ _ => a == b
  | view k a s _, view l b t _ => k == l && a == b && s.index == t.index
  | entries a s _, entries b t _ => a == b && s.index == t.index
  | lazy a _, lazy b _ => a == b
  | _, _ => false

/-- A view, unless the index is behind the end: that is always the empty list. -/
def ofSlice (kind : ViewKind) (storage : Storage) (slice : Slice) : Seq :=
  if slice.index < slice.buffer.size then view kind storage slice .plain else empty .plain

/-- A view of entries, unless the index is behind the end: that is always the empty list. -/
def ofEntries (storage : Storage) (slice : EntrySlice) : Seq :=
  if slice.index < slice.buffer.size then entries storage slice .plain else empty .plain

/-- The whole buffer under a view of an array. -/
def buffer? : Seq → Option (List Value)
  | view .array _ slice _ => some slice.buffer.toList
  | _ => none

end Seq

def Vec.seq (v : Vec) : Seq := .ofSlice .vector v.block.storage ⟨v.items.toArray, 0⟩

def ElemSet.seq (s : ElemSet) : Seq := .ofSlice .vector s.block.storage ⟨s.items.toArray, 0⟩

def Dict.seq (m : Dict) : Seq := .ofEntries m.storage ⟨m.flatten.toArray, 0⟩

namespace Value

def typeName : Value → String
  | atom a => a.typeName
  | vector _ => "Vector"
  | map _ => "ArrayMap"
  | set _ => "Set"
  | seq s => s.typeName

def isNil : Value → Bool
  | nil => true
  | _ => false

/-- Only nil and false count as false. -/
def truthy : Value → Bool
  | nil | bool false => false
  | _ => true

def isSequential : Value → Bool
  | vector _ | seq _ => true
  | _ => false

def isCallable : Value → Bool
  | proc _ | map _ | vector _ | set _ => true
  | _ => false

def count? : Value → Option Nat
  | vector v => some v.count
  | map m => some m.count
  | set s => some s.count
  | seq s => s.counted
  | atom _ => none

def info? : Value → Option Info
  | vector v => some v.info
  | map m => some m.info
  | set s => some s.info
  | seq s => some s.info
  | atom _ => none

/-- Atoms carry no information and stay as they are. -/
def withInfo (info : Info) : Value → Value
  | vector v => vector { v with info }
  | map m => map { m with info }
  | set s => set { s with info }
  | seq s => seq (s.withInfo info)
  | atom a => atom a

end Value

end LispKernel
