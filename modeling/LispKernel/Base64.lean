import LispKernel.Utf8

/-!
# Base64

The standard alphabet, with padding required and unused bits zero, so that every byte string has
exactly one form. A text that is no such form is refused with the place of its first fault.
-/
namespace LispKernel.Base64

inductive Fault where
  | invalidSymbol (byte : UInt8) (offset : Nat)
  | invalidLength (length : Nat)
  | invalidLastSymbol (byte : UInt8) (offset : Nat)
  | invalidPadding
deriving DecidableEq

def Fault.message : Fault → String
  | invalidSymbol byte offset =>
    "Invalid symbol " ++ toString byte.toNat ++ ", offset " ++ toString offset ++ "."
  | invalidLength length => "Invalid input length: " ++ toString length
  | invalidLastSymbol byte offset =>
    "Invalid last symbol " ++ toString byte.toNat ++ ", offset " ++ toString offset ++ "."
  | invalidPadding => "Invalid padding"

/-- The padding sign. -/
def pad : UInt8 := 61

/-- The byte that stands for six bits. -/
def symbol (digit : Nat) : UInt8 :=
  if digit < 26 then UInt8.ofNat (65 + digit)
  else if digit < 52 then UInt8.ofNat (97 + (digit - 26))
  else if digit < 62 then UInt8.ofNat (48 + (digit - 52))
  else if digit = 62 then 43
  else 47

/-- The six bits that a byte stands for. -/
def digit? (b : UInt8) : Option Nat :=
  if 65 ≤ b && b ≤ 90 then some (b.toNat - 65)
  else if 97 ≤ b && b ≤ 122 then some (b.toNat - 97 + 26)
  else if 48 ≤ b && b ≤ 57 then some (b.toNat - 48 + 52)
  else if b == 43 then some 62
  else if b == 47 then some 63
  else none

/-- Three bytes become four symbols; one or two at the end are padded. -/
def encode : List UInt8 → List UInt8
  | a :: b :: c :: rest =>
    symbol (a.toNat / 4) :: symbol (a.toNat % 4 * 16 + b.toNat / 16)
      :: symbol (b.toNat % 16 * 4 + c.toNat / 64) :: symbol (c.toNat % 64) :: encode rest
  | [a, b] =>
    [symbol (a.toNat / 4), symbol (a.toNat % 4 * 16 + b.toNat / 16), symbol (b.toNat % 16 * 4), pad]
  | [a] => [symbol (a.toNat / 4), symbol (a.toNat % 4 * 16), pad, pad]
  | [] => []

/-- The digits of bytes that begin at the given offset. -/
def digits (offset : Nat) : List UInt8 → Except Fault (List Nat)
  | [] => .ok []
  | b :: rest =>
    match digit? b with
    | some d => (digits (offset + 1) rest).map (d :: ·)
    | none => .error (.invalidSymbol b offset)

/-- The last group: its digits, the last symbol and the number of paddings. -/
structure Tail where
  digits : List Nat := []
  last : UInt8 := 0
  paddings : Nat := 0

/-- Reads the last group, which begins at offset `start`. Padding begins after two symbols at the
earliest and nothing else may follow it. -/
def Tail.read (start : Nat) (t : Tail) : List UInt8 → Except Fault Tail
  | [] => .ok t
  | b :: rest =>
    let k := t.digits.length + t.paddings
    if b == pad then
      if k < 2 then .error (.invalidSymbol b (start + k))
      else Tail.read start { t with paddings := t.paddings + 1 } rest
    else if t.paddings > 0 then .error (.invalidSymbol pad (start + t.digits.length))
    else
      match digit? b with
      | some d => Tail.read start { t with digits := t.digits ++ [d], last := b } rest
      | none => .error (.invalidSymbol b (start + k))

/-- The bits of the last digit that do not fill a byte. -/
def Tail.unusedBits (t : Tail) : Nat :=
  match t.digits with
  | [_, d] => d % 16
  | [_, _, d] => d % 4
  | _ => 0

/-- Four digits make three bytes; three make two, two make one. -/
def ofDigits : List Nat → List UInt8
  | a :: b :: c :: d :: rest =>
    UInt8.ofNat (a * 4 + b / 16) :: UInt8.ofNat (b % 16 * 16 + c / 4)
      :: UInt8.ofNat (c % 4 * 64 + d) :: ofDigits rest
  | [a, b, c] => [UInt8.ofNat (a * 4 + b / 16), UInt8.ofNat (b % 16 * 16 + c / 4)]
  | [a, b] => [UInt8.ofNat (a * 4 + b / 16)]
  | _ => []

/-- Where the last group begins: a text of whole groups keeps its last one apart. -/
def tailStart (length : Nat) : Nat :=
  if length % 4 = 0 then length - 4 else length - length % 4

/-- A single symbol after whole groups is refused at once if it is no symbol at all. -/
def checkSingle (bytes : List UInt8) : Except Fault Unit :=
  match bytes.getLast? with
  | some b =>
    if bytes.length % 4 = 1 && b != pad && (digit? b).isNone then
      .error (.invalidSymbol b (bytes.length - 1))
    else .ok ()
  | none => .ok ()

def decode (bytes : List UInt8) : Except Fault (List UInt8) := do
  checkSingle bytes
  let start := tailStart bytes.length
  let body ← digits 0 (bytes.take start)
  let tail ← Tail.read start {} (bytes.drop start)
  if !bytes.isEmpty && tail.digits.length < 2 then
    throw (.invalidLength (start + tail.digits.length))
  if (tail.digits.length + tail.paddings) % 4 ≠ 0 then throw .invalidPadding
  if tail.unusedBits ≠ 0 then
    throw (.invalidLastSymbol tail.last (start + tail.digits.length - 1))
  return ofDigits (body ++ tail.digits)

/-- What turns bytes into a text, and the bytes of a text back or tells what is wrong with it. -/
structure Engine where
  encode : List UInt8 → String
  decode : List UInt8 → Except String (List UInt8)

namespace Engine

def encodeText (engine : Engine) (text : String) : String :=
  engine.encode (Utf8.encode text.toList)

/-- The text whose encoding is given, or what is wrong with it. -/
def decodeText (engine : Engine) (text : String) : Except String String :=
  match engine.decode (Utf8.encode text.toList) with
  | .error reason => .error reason
  | .ok bytes =>
    match Utf8.decode bytes with
    | .error fault => .error fault.message
    | .ok chars => .ok (String.ofList chars)

end Engine

/-- The engine of this module. -/
def standard : Engine where
  encode bytes := String.ofList ((encode bytes).map fun b => Char.ofNat b.toNat)
  decode text := (decode text).mapError Fault.message

end LispKernel.Base64
