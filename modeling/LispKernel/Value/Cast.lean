import LispKernel.Value

/-!
# Typed access

Each accessor gives the payload of one kind of value and refuses every other kind by name.
-/
namespace LispKernel.Value

def refuse {α : Type} (expected : String) (v : Value) : Except Error α :=
  .error (.typeMismatch expected v.typeName none)

def asBool : Value → Except Error Bool
  | bool b => .ok b
  | v => v.refuse "Bool"

def asInt : Value → Except Error Int64
  | int n => .ok n
  | v => v.refuse "Int"

def asDouble : Value → Except Error Double
  | double d => .ok d
  | v => v.refuse "Double"

def asChar : Value → Except Error Char
  | char c => .ok c
  | v => v.refuse "Char"

def asString : Value → Except Error String
  | string s => .ok s
  | v => v.refuse "String"

def asKeyword : Value → Except Error Name
  | keyword k => .ok k
  | v => v.refuse "Keyword"

def asSymbol : Value → Except Error Name
  | symbol s => .ok s
  | v => v.refuse "Symbol"

def asVector : Value → Except Error Vec
  | vector v => .ok v
  | v => v.refuse "Vector"

def asMap : Value → Except Error Dict
  | map m => .ok m
  | v => v.refuse "ArrayMap"

def asSet : Value → Except Error ElemSet
  | set s => .ok s
  | v => v.refuse "Set"

def asSeq : Value → Except Error Seq
  | seq s => .ok s
  | v => v.refuse "Seq"

def asVar : Value → Except Error Var
  | var v => .ok v
  | v => v.refuse "Var"

def asProc : Value → Except Error Proc
  | proc p => .ok p
  | v => v.refuse "Proc"

end LispKernel.Value
