import LispKernel.Machine
import LispKernel.Namespace

/-!
# Streams

Lazy sequences whose producers count their calls.
-/
namespace LispKernel

/-- A new counter at zero. -/
def Counter.new : Run CounterRef := fun w =>
  some (.ok w.counters.size, { w with counters := w.counters.push 0 })

def Counter.value (c : CounterRef) : Run Nat := Run.gets fun w => (w.counters.get? c).getD 0

namespace Stream

/-- What a producer does on one of its calls. -/
inductive Outcome where
  | value (v : Value)
  | fail (e : Error)
  /-- Looks at the very sequence it produces before it answers. -/
  | reenter (v : Value)

/-- The producer of the sequence `self`: its calls take the outcomes in turn and then stay with the
last. -/
def scripted (own shared : CounterRef) (self : Seq) (outcomes : List Outcome) : Native :=
  fun _ => do
    let seen ← Action.ofExcept (← Action.request (.tick own)).asInt
    let _ ← Action.request (.tick shared)
    match outcomes[seen.toInt.toNat]?.or outcomes.getLast? with
    | some (.value v) => return v
    | some (.fail e) => .fail e
    | some (.reenter v) =>
      let _ ← Action.request (.first self)
      return v
    | none => return .nil

/-- A lazy sequence that follows a script and counts its calls with a shared counter. -/
def script (shared : CounterRef) (outcomes : List Outcome) : Run Seq := do
  let own ← Counter.new
  let self : Seq := .lazy (← Run.gets fun w => w.lazies.size) .plain
  let p ← Proc.new "lazy-seq" (scripted own shared self outcomes)
  return .lazy (← LazyCell.new (.proc p) []) .plain

/-- A lazy sequence of what a value gives when called without arguments. -/
def ofCallable (f : Value) : Run Seq := do return .lazy (← LazyCell.new f []) .plain

/-- Called with a number and a bound or nil: nothing from the bound on, and below it the number
before a sequence that is still to be produced. -/
def counting (counter : CounterRef) (self : Proc) : Native
  | [.int start, bound] => do
    let _ ← Action.request (.tick counter)
    let ended := match bound with
      | .int stop => decide (stop ≤ start)
      | _ => false
    if ended then return .nil
    let later ← Action.request (.suspend (.proc self) [.int (start + 1), bound])
    Action.request (.cons (.int start) (← Action.ofExcept later.asSeq))
  | _ => return .nil

/-- The integers from a start up to a bound, if there is one. -/
def range (counter : CounterRef) (start : Int64) (bound : Option Int64) : Run Seq := do
  let self : Proc := ⟨"lazy-seq", ← Run.gets fun w => w.natives.size⟩
  let p ← Proc.new "lazy-seq" (counting counter self)
  return .lazy (← LazyCell.new (.proc p) [.int start, (bound.map Value.int).getD .nil]) .plain

end Stream

end LispKernel
