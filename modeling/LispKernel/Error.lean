/-!
# Errors

Every failure is one `Error`. The evaluator stamps an error with the position of the innermost
expression it escaped from.
-/
namespace LispKernel

structure Position where
  line : Nat
  column : Nat
deriving DecidableEq, Inhabited

protected def Position.toString (p : Position) : String :=
  toString p.line ++ ":" ++ toString p.column

instance : ToString Position := ⟨Position.toString⟩

/-- How many arguments a procedure takes. -/
inductive Arity where
  | exact (n : Nat)
  | atLeast (n : Nat)
  | range (least most : Nat)
deriving DecidableEq

protected def Arity.toString : Arity → String
  | .exact n => toString n
  | .atLeast n => "at least " ++ toString n
  | .range least most => toString least ++ " to " ++ toString most

instance : ToString Arity := ⟨Arity.toString⟩

inductive Error where
  | unboundVar (var : String)
  | unresolvedSymbol (symbol : String)
  | duplicateKey (key : String)
  | duplicateElement (element : String)
  | notCallable (value : String)
  /-- The length is unknown for a negative index. -/
  | indexOutOfRange (index : Int64) (length : Option Nat)
  | invalidArgument (reason : String)
  | metaUnsupported (type : String)
  | malformedInput (reason : String)
  | arity (expected : Arity) (got : Nat) (name : Option String)
  | typeMismatch (expected got : String) (context : Option String)
  | depthExceeded (limit : Nat)
  | positioned (position : Position) (source : Error)
deriving DecidableEq

namespace Error

def message : Error → String
  | unboundVar var => "Unbound var: " ++ var
  | unresolvedSymbol symbol => "Unable to resolve symbol: " ++ symbol ++ " in this context"
  | duplicateKey key => "Duplicate key: " ++ key
  | duplicateElement element => "Duplicate set element: " ++ element
  | notCallable value => value ++ " is not callable"
  | indexOutOfRange index (some length) =>
    "Index " ++ toString index.toInt ++ " exceeds seq's length " ++ toString length
  | indexOutOfRange index none => "Negative index: " ++ toString index.toInt
  | invalidArgument reason => reason
  | metaUnsupported type => type ++ " does not support metadata"
  | malformedInput reason => reason
  | arity expected got (some name) =>
    "Wrong number of arguments to '" ++ name ++ "': expected " ++ toString expected
      ++ ", got " ++ toString got
  | arity expected got none =>
    "Wrong number of arguments: expected " ++ toString expected ++ ", got " ++ toString got
  | typeMismatch expected got (some context) =>
    context ++ ": expected " ++ expected ++ ", got " ++ got
  | typeMismatch expected got none => "Expected " ++ expected ++ ", got " ++ got
  | depthExceeded limit => "Stack overflow: maximum eval depth (" ++ toString limit ++ ") exceeded"
  | positioned position source => toString position ++ ": Eval error: " ++ source.message

/-- Attach a position; an error that has one keeps it. -/
def located (position : Position) : Error → Error
  | positioned p source => positioned p source
  | e => positioned position e

/-- The error under all its positions. -/
def kind : Error → Error
  | positioned _ source => source.kind
  | e => e

def position? : Error → Option Position
  | positioned p _ => some p
  | _ => none

end Error

end LispKernel
