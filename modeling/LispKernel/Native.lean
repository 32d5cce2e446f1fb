import LispKernel.Expr

/-!
# Native procedures

A native procedure turns its arguments into an action: it answers, or it asks the machine for
something and goes on with what it is told, be it a value or an error. All that a procedure can
see or change goes through requests.

There is no request to make or refer vars, to select a namespace, to bind a var other than by
evaluating a definition, to hash or count, or to change the limits for depth and printing:
procedures that do so themselves are left out.
-/
namespace LispKernel

abbrev FrameRef := Nat
abbrev CounterRef := Nat

inductive Request where
  /-- Evaluate in a new frame that binds the given names. -/
  | eval (x : Expr) (frame : FrameRef) (locals : List (Name × Value))
  | call (f : Value) (args : List Value)
  | equals (a b : Value)
  | render (v : Value) (escape : Bool)
  | first (s : Seq)
  | rest (s : Seq)
  | nth (s : Seq) (index : Int64)
  | cons (x : Value) (s : Seq)
  /-- A lazy sequence of what the call returns, made when it is first looked at. -/
  | suspend (f : Value) (args : List Value)
  | vector (items : List Value)
  | conj (m : Dict) (x : Value)
  /-- The number of evaluations under way. -/
  | depth
  /-- Add one to a counter and tell what it was. -/
  | tick (counter : CounterRef)
  | log (line : String)

inductive Action (α : Type) where
  | done (answer : Except Error α)
  | ask (q : Request) (next : Except Error Value → Action α)

namespace Action

variable {α β : Type}

/-- Goes on with the value of an action and stops at its error. -/
protected def bind (f : α → Action β) : Action α → Action β
  | done (.ok a) => f a
  | done (.error e) => done (.error e)
  | ask q next => ask q fun answer => (next answer).bind f

instance : Monad Action where
  pure a := done (.ok a)
  bind x f := x.bind f

def fail (e : Error) : Action α := done (.error e)

def ofExcept (r : Except Error α) : Action α := done r

def request (q : Request) : Action Value := ask q done

end Action

abbrev Native := List Value → Action Value

end LispKernel
