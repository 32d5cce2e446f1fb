/-!
# Hashing words and bytes

A hash of a sequence of 64-bit words by multiplication, and a hash of a byte string into one word by
folded 128-bit products.
-/
namespace LispKernel.Hash

def rotateLeft64 (x : UInt64) (k : UInt64) : UInt64 := (x <<< k) ||| (x >>> (64 - k))

def addWord (h word : UInt64) : UInt64 := (h + word) * 0xf1357aea2e62a9c5

/-- The state rotated so that its best bits come low, and both halves laid over each other. -/
def finish (h : UInt64) : UInt32 :=
  let r := rotateLeft64 h 26
  (r ^^^ (r >>> 32)).toUInt32

def ofWords (words : List UInt64) : UInt32 := finish (words.foldl addWord 0)

/-- The high half of a product laid over its low half. -/
def foldedProduct (x y : UInt64) : UInt64 :=
  let p := x.toNat * y.toNat
  UInt64.ofNat p ^^^ UInt64.ofNat (p >>> 64)

/-- The first byte is the lowest. -/
def littleEndian (bytes : List UInt8) : UInt64 :=
  bytes.foldr (fun b word => (word <<< 8) ||| b.toUInt64) 0

/-- Takes in sixteen bytes at a time as long as more than sixteen are left. -/
def absorb (s₀ s₁ : UInt64) (bytes : List UInt8) : UInt64 × UInt64 :=
  if h : bytes.length ≤ 16 then (s₀, s₁)
  else
    let t := foldedProduct (s₀ ^^^ littleEndian (bytes.take 8))
      (0xa4093822299f31d0 ^^^ littleEndian ((bytes.drop 8).take 8))
    absorb s₁ t (bytes.drop 16)
termination_by bytes.length
decreasing_by simp; omega

/-- Both ends of the string enter the state last, and so does its length. -/
def ofBytes (bytes : List UInt8) : UInt64 :=
  let n := bytes.length
  let (s₀, s₁) := absorb 0x243f6a8885a308d3 0x13198a2e03707344 bytes
  let (low, high) :=
    if n > 16 then
      (littleEndian ((bytes.drop (n - 16)).take 8), littleEndian (bytes.drop (n - 8)))
    else if n ≥ 8 then (littleEndian (bytes.take 8), littleEndian (bytes.drop (n - 8)))
    else if n ≥ 4 then (littleEndian (bytes.take 4), littleEndian (bytes.drop (n - 4)))
    else
      match bytes with
      | [] => (0, 0)
      | first :: _ =>
        (first.toUInt64,
          ((bytes.getD (n - 1) 0).toUInt64 <<< 8) ||| (bytes.getD (n / 2) 0).toUInt64)
  foldedProduct (s₀ ^^^ low) (s₁ ^^^ high) ^^^ UInt64.ofNat n

def ofString (s : String) : UInt32 := ofWords [ofBytes s.toUTF8.toList, 0xff]

end LispKernel.Hash
