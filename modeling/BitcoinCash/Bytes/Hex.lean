import BitcoinCash.Bytes.Basic
import BitcoinCash.Text.QuotedChar

namespace BitcoinCash

inductive HexError
  | oddLength
  | invalidCharacter (byte : UInt8) (index : Nat)
  deriving DecidableEq, Repr

def HexError.message : HexError → String
  | .oddLength => "Odd number of digits"
  | .invalidCharacter byte index =>
    "Invalid character " ++ QuotedChar.quote (Char.ofNat byte.toNat) ++ " at position " ++
      toString index

namespace Hex

def digit (n : UInt8) : Char :=
  if n < 10 then Char.ofNat (48 + n.toNat) else Char.ofNat (87 + n.toNat)

def value? (c : UInt8) : Option UInt8 :=
  if 48 ≤ c ∧ c ≤ 57 then some (c - 48)
  else if 97 ≤ c ∧ c ≤ 102 then some (c - 87)
  else if 65 ≤ c ∧ c ≤ 70 then some (c - 55)
  else none

def pair (x : UInt8) : List Char :=
  [digit (x / 16), digit (x % 16)]

def encodeChars (b : Bytes) : List Char :=
  b.flatMap pair

def encode (b : Bytes) : String :=
  String.ofList (encodeChars b)

def readDigit (index : Nat) (c : UInt8) : Except HexError UInt8 :=
  match value? c with
  | some v => .ok v
  | none => .error (.invalidCharacter c index)

def decodeFrom : (index : Nat) → Bytes → Except HexError Bytes
  | _, [] => .ok []
  | _, [_] => .error .oddLength
  | i, hi :: lo :: rest => do
    let h ← readDigit i hi
    let l ← readDigit (i + 1) lo
    let b ← decodeFrom (i + 2) rest
    return (16 * h + l) :: b

/-- An odd number of codes is reported before any of them is looked at. -/
def decodeCodes (codes : Bytes) : Except HexError Bytes :=
  if codes.length % 2 = 1 then .error .oddLength else decodeFrom 0 codes

/-- Positions count the bytes of the text in UTF-8. -/
def decodeChars (cs : List Char) : Except HexError Bytes :=
  decodeCodes (cs.flatMap String.utf8EncodeChar)

def decode (s : String) : Except HexError Bytes :=
  decodeChars s.toList

end Hex

end BitcoinCash
