/-!
# UTF-8

Text as bytes and back. A byte string that is no text is refused at the first byte that rules it
out.
-/
namespace LispKernel.Utf8

/-- What is wrong with a byte string, and how many bytes before it are text. -/
inductive Fault where
  /-- The first `length` bytes of a character cannot go on as they do. -/
  | invalid (length index : Nat)
  /-- The bytes end within a character. -/
  | incomplete (index : Nat)
deriving DecidableEq

def Fault.message : Fault → String
  | invalid length index =>
    "invalid utf-8 sequence of " ++ toString length ++ " bytes from index " ++ toString index
  | incomplete index => "incomplete utf-8 byte sequence from index " ++ toString index

def encode (text : List Char) : List UInt8 := text.flatMap String.utf8EncodeChar

def isContinuation (b : UInt8) : Bool := 0x80 ≤ b && b ≤ 0xbf

/-- Which bytes may follow the lead byte of a longer character: overlong forms, surrogates and
numbers beyond the last character are ruled out here. -/
def isSecond (lead b : UInt8) : Bool :=
  if lead == 0xe0 then 0xa0 ≤ b && b ≤ 0xbf
  else if lead == 0xed then 0x80 ≤ b && b ≤ 0x9f
  else if lead == 0xf0 then 0x90 ≤ b && b ≤ 0xbf
  else if lead == 0xf4 then 0x80 ≤ b && b ≤ 0x8f
  else isContinuation b

/-- The six bits that a continuation byte carries. -/
def payload (b : UInt8) : Nat := b.toNat % 64

def char₂ (a b : UInt8) : Char := Char.ofNat (a.toNat % 32 * 64 + payload b)

def char₃ (a b c : UInt8) : Char := Char.ofNat ((a.toNat % 16 * 64 + payload b) * 64 + payload c)

def char₄ (a b c d : UInt8) : Char :=
  Char.ofNat (((a.toNat % 8 * 64 + payload b) * 64 + payload c) * 64 + payload d)

/-- Decodes bytes that begin at the given index. -/
def decodeFrom (index : Nat) : List UInt8 → Except Fault (List Char)
  | [] => .ok []
  | a :: rest =>
    if a < 0x80 then
      (decodeFrom (index + 1) rest).map (Char.ofNat a.toNat :: ·)
    else if a < 0xc2 || 0xf4 < a then .error (.invalid 1 index)
    else
      match rest with
      | [] => .error (.incomplete index)
      | b :: rest =>
        if !isSecond a b then .error (.invalid 1 index)
        else if a < 0xe0 then
          (decodeFrom (index + 2) rest).map (char₂ a b :: ·)
        else
          match rest with
          | [] => .error (.incomplete index)
          | c :: rest =>
            if !isContinuation c then .error (.invalid 2 index)
            else if a < 0xf0 then
              (decodeFrom (index + 3) rest).map (char₃ a b c :: ·)
            else
              match rest with
              | [] => .error (.incomplete index)
              | d :: rest =>
                if !isContinuation d then .error (.invalid 3 index)
                else (decodeFrom (index + 4) rest).map (char₄ a b c d :: ·)

def decode (bytes : List UInt8) : Except Fault (List Char) := decodeFrom 0 bytes

end LispKernel.Utf8
