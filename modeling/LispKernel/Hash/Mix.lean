/-!
# Mixing collection hashes

The hash of a collection folds the hashes of its elements and is then mixed with their number.
-/
namespace LispKernel.Hash

def rotateLeft32 (x : UInt32) (k : UInt32) : UInt32 := (x <<< k) ||| (x >>> (32 - k))

def spread (h : UInt32) : UInt32 := rotateLeft32 (h * 0xcc9e2d51) 15 * 0x1b873593

def blend (h : UInt32) : UInt32 := rotateLeft32 h 13 * 5 + 0xe6546b64

def avalanche (h : UInt32) : UInt32 :=
  let h := h ^^^ (h >>> 16)
  let h := h * 0x85ebca6b
  let h := h ^^^ (h >>> 13)
  let h := h * 0xc2b2ae35
  h ^^^ (h >>> 16)

def mix (h count : UInt32) : UInt32 := avalanche (blend (spread h) ^^^ count)

/-- A hash on its way through a collection. -/
structure Tally where
  hash : UInt32
  count : UInt32 := 0

namespace Tally

def seeded (seed : UInt32) : Tally := ⟨seed, 0⟩

/-- Order matters. -/
def ordered (t : Tally) (h : UInt32) : Tally := ⟨t.hash * 31 + h, t.count + 1⟩

/-- Order does not matter. -/
def unordered (t : Tally) (h : UInt32) : Tally := ⟨t.hash + h, t.count + 1⟩

def finish (t : Tally) : UInt32 := mix t.hash t.count

end Tally

end LispKernel.Hash
