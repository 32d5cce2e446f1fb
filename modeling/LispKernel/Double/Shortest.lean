import LispKernel.Double

/-!
# Shortest decimals

A finite positive double is `m * 2 ^ e`; the reals that round to it form an interval around it,
which contains its ends exactly when `m` is even. The shortest decimal of the double is the nearest
multiple of the greatest power of ten that has a multiple in the interval.
-/
namespace LispKernel

/-- The number `digits * 10 ^ exponent`. -/
structure Decimal where
  digits : Nat
  exponent : Int
deriving DecidableEq

/-- Digits without an exponent; a whole number ends in `.0`. -/
def Decimal.positional (d : Decimal) : String :=
  let digits := toString d.digits
  if 0 ≤ d.exponent then
    digits ++ String.ofList (List.replicate d.exponent.toNat '0') ++ ".0"
  else
    let places := (-d.exponent).toNat
    if places < digits.length then
      String.ofList (digits.toList.take (digits.length - places)) ++ "."
        ++ String.ofList (digits.toList.drop (digits.length - places))
    else
      "0." ++ String.ofList (List.replicate (places - digits.length) '0') ++ digits

namespace Double

/-- The integer significand. -/
def significand (d : Double) : Nat :=
  if d.exponent == 0 then d.fraction else d.fraction + 0x10000000000000

/-- The power of two that scales the significand. -/
def scale (d : Double) : Int :=
  if d.exponent == 0 then -1074 else d.exponent - 1075

/-- The interval of reals that round to a double, in quarters of its last place. -/
structure Interval where
  low : Nat
  value : Nat
  high : Nat
  closed : Bool
  scale : Int

/-- Below a power of two the neighbours are half as far away. -/
def interval (d : Double) : Interval where
  low := 4 * d.significand - (if d.fraction == 0 && d.exponent > 1 then 1 else 2)
  value := 4 * d.significand
  high := 4 * d.significand + 2
  closed := d.significand % 2 == 0
  scale := d.scale - 2

namespace Interval

/-- What one unit of `10 ^ k` weighs when both sides are brought to integers. -/
def unit (i : Interval) (k : Int) : Nat := Nat.pow 10 k.toNat * Nat.pow 2 (-i.scale).toNat

/-- What one unit of the interval weighs when both sides are brought to integers. -/
def weight (i : Interval) (k : Int) : Nat := Nat.pow 2 i.scale.toNat * Nat.pow 10 (-k).toNat

def contains (i : Interval) (k : Int) (t : Nat) : Bool :=
  if i.closed then
    i.low * i.weight k ≤ t * i.unit k && t * i.unit k ≤ i.high * i.weight k
  else
    i.low * i.weight k < t * i.unit k && t * i.unit k < i.high * i.weight k

/-- The multiple of `10 ^ k` in the interval nearest to the value; of two equally near ones the
greater. -/
def nearest? (i : Interval) (k : Int) : Option Nat :=
  let below := i.value * i.weight k / i.unit k
  let above := below + 1
  match i.contains k below, i.contains k above with
  | true, true =>
    let down := i.value * i.weight k - below * i.unit k
    let up := above * i.unit k - i.value * i.weight k
    some (if down < up then below else above)
  | true, false => some below
  | false, true => some above
  | false, false => none

/-- Tries the powers of ten from `k` downwards. -/
def search (i : Interval) : Nat → Int → Decimal
  | 0, k => ⟨i.value * i.weight k / i.unit k, k⟩
  | n + 1, k =>
    match i.nearest? k with
    | some t => ⟨t, k⟩
    | none => i.search n (k - 1)

/-- A power of ten above the whole interval, by the binary length of its upper end. -/
def top (i : Interval) : Int := ((i.high.log2 + 1 : Int) + i.scale) * 30103 / 100000 + 1

/-- Seventeen digits always suffice, and `top` is less than three places too high. -/
def shortest (i : Interval) : Decimal := i.search 22 i.top

end Interval

protected def toString (d : Double) : String :=
  if d.isNaN then "##NaN"
  else if d.isInfinite then (if d.negative then "##-Inf" else "##Inf")
  else
    let magnitude := if d.isZero then "0.0" else d.interval.shortest.positional
    if d.negative then "-" ++ magnitude else magnitude

instance : ToString Double := ⟨Double.toString⟩

end Double

end LispKernel
