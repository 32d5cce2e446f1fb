import LispKernel.Run

/-!
# Settings

How many elements of a collection are shown and how deep evaluation may nest, and the log that
native procedures write. Each setter tells what was there before.
-/
namespace LispKernel.Settings

def setPrintLength (limit : Option Nat) : Run (Option Nat) := fun w =>
  some (.ok w.printLength, { w with printLength := limit })

def setMaxDepth (limit : Nat) : Run Nat := fun w =>
  some (.ok w.maxDepth, { w with maxDepth := limit })

/-- The lines since the log was last taken, the oldest first. -/
def takeLog : Run (List String) := fun w => some (.ok w.log.reverse, { w with log := [] })

end LispKernel.Settings
