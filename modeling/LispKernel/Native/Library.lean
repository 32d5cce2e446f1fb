import LispKernel.Native
import LispKernel.Value.Cast

/-!
# A library of native procedures

Checks of arguments, and procedures made from them. A procedure gets the name under which it reports
wrong arguments.
-/
namespace LispKernel

def checkArity (name : String) (expected : Nat) (args : List Value) : Except Error Unit :=
  if args.length = expected then .ok ()
  else .error (.arity (.exact expected) args.length (some name))

def ensureString (name : String) (index : Nat) (args : List Value) : Except Error String :=
  match args[index]? with
  | some (.string s) => .ok s
  | some v => .error (.typeMismatch "String" v.typeName (some name))
  | none => .error (.arity (.exact (index + 1)) args.length (some name))

namespace Native

def const (v : Value) : Native := fun _ => return v

/-- Nil where there is no such argument. -/
def argument (index : Nat) : Native := fun args => return args.getD index .nil

def failing (e : Error) : Native := fun _ => .fail e

def withArity (name : String) (expected : Nat) (body : Native) : Native := fun args => do
  Action.ofExcept (checkArity name expected args)
  body args

def withString (name : String) (index : Nat) (body : Native) : Native := fun args => do
  let _ ← Action.ofExcept (ensureString name index args)
  body args

/-- Evaluates an expression where the arguments are bound to `%0`, `%1` and so on. -/
def evaluating (x : Expr) (frame : FrameRef) : Native := fun args =>
  Action.request (.eval x frame (args.zipIdx.map fun (v, i) => (⟨none, "%" ++ toString i⟩, v)))

def args : Native := fun args => Action.request (.vector args)

def argc : Native := fun args => return .int (Int64.ofNat args.length)

def depth : Native := fun _ => Action.request .depth

/-- Writes the arguments to the log and answers the first. -/
def log : Native := fun args => do
  let text ← Action.request (.render (← Action.request (.vector args)) true)
  if let .string line := text then let _ ← Action.request (.log line)
  return args.headD .nil

def inc (name : String) : Native := withArity name 1 fun args => do
  return .int ((← Action.ofExcept (args.headD .nil).asInt) + 1)

def dec (name : String) : Native := withArity name 1 fun args => do
  return .int ((← Action.ofExcept (args.headD .nil).asInt) - 1)

def positive (name : String) : Native := withArity name 1 fun args => do
  return .bool (0 < (← Action.ofExcept (args.headD .nil).asInt))

def equals (name : String) : Native := withArity name 2 fun args =>
  Action.request (.equals (args.getD 0 .nil) (args.getD 1 .nil))

def first (name : String) : Native := withArity name 1 fun args => do
  Action.request (.first (← Action.ofExcept (args.headD .nil).asSeq))

def rest (name : String) : Native := withArity name 1 fun args => do
  Action.request (.rest (← Action.ofExcept (args.headD .nil).asSeq))

def nth (name : String) : Native := withArity name 2 fun args => do
  let s ← Action.ofExcept (args.getD 0 .nil).asSeq
  Action.request (.nth s (← Action.ofExcept (args.getD 1 .nil).asInt))

def conj (name : String) : Native := withArity name 2 fun args => do
  Action.request (.conj (← Action.ofExcept (args.getD 0 .nil).asMap) (args.getD 1 .nil))

def str (name : String) : Native := withArity name 1 fun args =>
  Action.request (.render (args.headD .nil) false)

/-- The procedures that are known by a word; `name` is the one they report. -/
def library? (name : String) : String → Option Native
  | "args" => some args
  | "argc" => some argc
  | "depth" => some depth
  | "log" => some log
  | "inc" => some (inc name)
  | "dec" => some (dec name)
  | "pos?" => some (positive name)
  | "equals" => some (equals name)
  | "first" => some (first name)
  | "rest" => some (rest name)
  | "nth" => some (nth name)
  | "conj" => some (conj name)
  | "str" => some (str name)
  | _ => none

end Native

end LispKernel
