/-!
# Double-precision words

A double is its 64-bit IEEE 754 word. Nothing is computed with doubles here: they are compared,
hashed and written.
-/
namespace LispKernel

structure Double where
  bits : UInt64
deriving DecidableEq, Inhabited

namespace Double

def negative (d : Double) : Bool := d.bits >>> 63 == 1

/-- The biased exponent field. -/
def exponent (d : Double) : Nat := ((d.bits >>> 52) &&& 0x7ff).toNat

def fraction (d : Double) : Nat := (d.bits &&& 0xfffffffffffff).toNat

def isNaN (d : Double) : Bool := d.exponent == 0x7ff && d.fraction != 0

def isInfinite (d : Double) : Bool := d.exponent == 0x7ff && d.fraction == 0

/-- Both zeros. -/
def isZero (d : Double) : Bool := d.exponent == 0 && d.fraction == 0

/-- A NaN equals nothing and the two zeros are equal. -/
def equals (a b : Double) : Bool :=
  !a.isNaN && !b.isNaN && (a.bits == b.bits || (a.isZero && b.isZero))

/-- One word for each class of equal doubles. -/
def canonicalBits (d : Double) : UInt64 := if d.isZero then 0 else d.bits

end Double

end LispKernel
