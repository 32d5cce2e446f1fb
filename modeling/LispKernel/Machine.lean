import LispKernel.Env
import LispKernel.Hash
import LispKernel.Metadata
import LispKernel.Render

/-!
# The machine

Evaluating an expression, calling a value and realizing a lazy cell need each other. Each is given
once in terms of the others, and `eval`, `call` and `force` tie the three together: with fuel
`n + 1` each uses the others with fuel `n`.
-/
namespace LispKernel

namespace World

/-- One level of evaluation further down. -/
def below (w : World) : World := { w with depth := w.depth + 1 }

/-- A level given back; at the top there is none to give back. -/
def above (w : World) : World := { w with depth := w.depth - 1 }

end World

/-- A nested evaluation: one level of depth is taken for its time and given back however it ends. A
level beyond the limit is given back at once, and the evaluation is not begun. -/
@[inline] def Run.nested {α : Type} (x : Run α) : Run α := fun w =>
  if w.maxDepth < w.below.depth then some (.error (.depthExceeded w.maxDepth), w.below.above)
  else
    match x w.below with
    | some (r, w') => some (r, w'.above)
    | none => none

namespace LazyCell

/-- A new cell that waits for a call. -/
def new (callee : Value) (args : List Value) : Run LazyRef := fun w =>
  some (.ok w.lazies.size, { w with lazies := w.lazies.push (.pending callee args) })

/-- Notes that the cell makes its call. -/
def start (cell : LazyRef) : Run Unit := Run.update fun w =>
  { w with productions := cell :: w.productions }

def fill (cell : LazyRef) (s : Seq) : Run Unit := Run.update fun w =>
  { w with lazies := w.lazies.set cell (.realized s) }

def realized? (cell : LazyRef) : Run (Option Seq) := Run.gets fun w =>
  match w.lazies.get? cell with
  | some (.realized s) => some s
  | _ => none

/-- Keeps the elements of what the call gave. If the cell was realized while the call was under way,
it stays as it is and the result is dropped. -/
def keep (cell : LazyRef) (value : Value) : Run Seq := do
  match ← value.seq? with
  | none => .fail (.typeMismatch "seqable" value.typeName (some "lazy-seq"))
  | some s =>
    match ← realized? cell with
    | some existing => return existing
    | none =>
      fill cell s
      return s

/-- A cell that waits makes its call and keeps the result. A failed call leaves it as it is. -/
def realize (call : Value → List Value → Run Value) (cell : LazyRef) : Run Seq := do
  match ← Run.gets fun w => w.lazies.get? cell with
  | some (.realized s) => return s
  | none => return .empty .plain
  | some (.pending callee args) =>
    start cell
    keep cell (← call callee args)

end LazyCell

namespace Expr

/-- What an expression evaluates to, given how its parts and calls do. -/
@[inline] def evalWith (eval : Expr → Run Value) (call : Value → List Value → Run Value)
    (eq : Comparison) (display : Value → Run String) (env : FrameRef) : Expr → Run Value
  | literal value _ => return value
  | ref v _ => v.deref
  | symbol name _ => do
    match ← Env.resolve env name with
    | some value => return value
    | none => .fail (.unresolvedSymbol (toString name))
  | vector items _ => do return .vector (← Vec.ofList (← items.mapM eval))
  | map entries _ => do return .map (← addEntries (← Dict.new) entries)
  | set items _ => do return .set (← addItems (← ElemSet.new) items)
  | define v value metadata _ => do
    if let some x := value then v.bind (← eval x)
    if let some x := metadata then v.setMetadata (some (← evalMetadata "def" x))
    return .var v
  | annotate metadata body _ => do
    let metadata ← evalMetadata "with-meta" metadata
    (← eval body).withMeta eq metadata
  | Expr.call callee args _ => do
    let target ← eval callee
    if target.isCallable then call target (← args.mapM eval)
    else .fail ((Error.notCallable (← display target)).located callee.position)
  | block body _ => body.foldlM (fun _ x => eval x) .nil
  | branch condition positive negative _ => do
    if (← eval condition).truthy then eval positive
    else
      match negative with
      | some x => eval x
      | none => return .nil
where
  /-- Keys that repeat are refused. -/
  addEntries (m : Dict) : List (Expr × Expr) → Run Dict
    | [] => return m
    | (k, v) :: rest => do
      let key ← eval k
      let value ← eval v
      match ← m.add? eq key value with
      | some m => addEntries m rest
      | none => .fail (.duplicateKey (← display key))
  /-- Elements that repeat are refused. -/
  addItems (s : ElemSet) : List Expr → Run ElemSet
    | [] => return s
    | x :: rest => do
      let value ← eval x
      match ← s.add? eq value with
      | some s => addItems s rest
      | none => .fail (.duplicateElement (← display value))
  evalMetadata (context : String) (x : Expr) : Run Dict := do
    match ← eval x with
    | .map m => return m
    | v => .fail ((Error.typeMismatch "ArrayMap" v.typeName (some context)).located x.position)

end Expr

namespace Action

/-- Runs an action with each request answered as told. -/
def run (answer : Request → Run Value) : Action Value → Run Value
  | done r => .ofExcept r
  | ask q next => do (next (← (answer q).attempt)).run answer

end Action

/-- Binds names in a frame, the last one to win. -/
def Env.defineAll (env : FrameRef) : List (Name × Value) → Run Unit
  | [] => return ()
  | (symbol, value) :: rest => do
    define env symbol value
    defineAll env rest

/-- What the machine answers to a request, given how it evaluates, calls and realizes. -/
def Request.answer (eval : Expr → FrameRef → Run Value) (call : Value → List Value → Run Value)
    (force : Force) (n : Nat) : Request → Run Value
  | .eval x frame locals => do
    let child ← Env.child frame
    Env.defineAll child locals
    eval x child
  | .call f args => call f args
  | .equals a b => return .bool (← a.equals force n b)
  | .render v escape => return .string (← v.render force escape n)
  | .first s => s.first force n
  | .rest s => return .seq (← s.rest force n)
  | .nth s index => s.nth force n index
  | .cons x s => return .seq (← s.prepend x)
  | .suspend f args => return .seq (.lazy (← LazyCell.new f args) .plain)
  | .vector items => return .vector (← Vec.ofList items)
  | .conj m x => return .map (← m.conj (Value.equals force n) x)
  | .depth => return .int (Int64.ofNat (← Run.gets World.depth))
  | .tick counter => fun w =>
    let seen := (w.counters.get? counter).getD 0
    some (.ok (.int (Int64.ofNat seen)), { w with counters := w.counters.set counter (seen + 1) })
  | .log line => do
    Run.update fun w => { w with log := line :: w.log }
    return .nil

namespace Machine

mutual

def eval : Nat → Expr → FrameRef → Run Value
  | 0, _, _ => .exhausted
  | n + 1, x, env =>
    (x.evalWith (fun y => eval n y env) (call n) (Value.equals (force n) n)
      (Value.display (force n) false n) env).nested.mapError (.located x.position)

def call : Nat → Value → List Value → Run Value
  | 0, _, _ => .exhausted
  | n + 1, f, args =>
    match f with
    | .proc p => do
      match ← Run.gets fun w => w.natives.get? p.code with
      | some code => (code args).run (Request.answer (eval n) (call n) (force n) n)
      | none => .fail (.notCallable (toString p))
    | .map m => m.call (Value.equals (force n) n) args
    | .vector v => v.call args
    | .set s => s.call (Value.equals (force n) n) args
    | f => do .fail (.notCallable (← f.display (force n) false n))

def force : Nat → LazyRef → Run Seq
  | 0, _ => .exhausted
  | n + 1, cell => LazyCell.realize (call n) cell

end

end Machine

end LispKernel
