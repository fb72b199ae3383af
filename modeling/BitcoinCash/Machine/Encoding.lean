import BitcoinCash.Machine.Checked
import BitcoinCash.Machine.Flags

namespace BitcoinCash.Encoding

def byteAt (b : Bytes) (i : Nat) : Run UInt8 := Checked.item b i

/-- Strict DER: a sequence that is the whole of `b`, of two positive integers without
superfluous bytes. -/
def checkDer (b : Bytes) : Run Unit := do
  let length := b.length
  require (8 ≤ length) (.der .tooShort)
  require (length ≤ 72) (.der .tooLong)
  require ((← byteAt b 0) = 0x30) (.der .sequenceMarker)
  require ((← byteAt b 1).toNat = (← Checked.minus length 2)) (.der .length)
  let r := (← byteAt b 3).toNat
  require (5 + r < length) (.der .sLengthMissing)
  let s := (← byteAt b (5 + r)).toNat
  require (r + s + 6 = length) (.der .sLength)
  require ((← byteAt b 2) = 0x02) (.der .rMarker)
  require (r ≠ 0) (.der .rEmpty)
  checkInteger r (← byteAt b 4) (byteAt b 5) .rNegative .rPadded
  require ((← byteAt b (4 + r)) = 0x02) (.der .sMarker)
  require (s ≠ 0) (.der .sEmpty)
  checkInteger s (← byteAt b (6 + r)) (byteAt b (7 + r)) .sNegative .sPadded
where
  /-- An integer of `n` bytes, given its first byte and a way to its second. -/
  checkInteger (n : Nat) (first : UInt8) (second : Run UInt8) (negative padded : DerRule) :
      Run Unit := do
    require (first &&& 0x80 = 0) (.der negative)
    if 1 < n ∧ first = 0 then
      require ((← second) &&& 0x80 ≠ 0) (.der padded)

def halfOrder : Bytes :=
  [0x7f, 0xff, 0xff, 0xff, 0xff, 0xff, 0xff, 0xff, 0xff, 0xff, 0xff, 0xff, 0xff, 0xff, 0xff, 0xff,
    0x5d, 0x57, 0x6e, 0x73, 0x57, 0xa4, 0x50, 0x1d, 0xdf, 0xe9, 0x2f, 0x46, 0x68, 0x1b, 0x20, 0xa0]

def sBody? (b : Bytes) : Run (Option Bytes) := do
  let some r := b[3]? | return none
  let start := 6 + r.toNat
  let some n := b[← Checked.minus start 1]? | return none
  return if start + n.toNat ≤ b.length then some ((b.drop start).take n.toNat) else none

/-- The second integer is at most half the order, seen from its bytes alone. -/
def hasLowS (b : Bytes) : Run Bool := do
  let some s ← sBody? b | return false
  let zeros := (s.takeWhile (· = 0)).length
  let (_, magnitude) ← Checked.splitAt s zeros
  return magnitude.length < halfOrder.length ||
    (magnitude.length = halfOrder.length && magnitude ≤ halfOrder)

/-- The rules for a signature without a type byte; the empty signature passes. -/
def checkBareSignature (flags : Flags) (b : Bytes) : Run Unit := do
  if !b.isEmpty then
    if flags.hasAny [.derSignatures, .lowS, .strictEncoding] then checkDer b
    if flags.has .lowS then require (← hasLowS b) .highS

def forkIdBit : UInt8 := 0x40

/-- The base type is one of three, and the fork id is there exactly if it is in force. -/
def checkHashType (flags : Flags) (t : UInt8) : Run Unit := do
  let base := t &&& ~~~(forkIdBit ||| 0x80)
  require (1 ≤ base ∧ base ≤ 3) (.hashType t)
  if t &&& forkIdBit ≠ 0 then require (flags.has .forkId) .unexpectedForkId
  else require (!flags.has .forkId) .missingForkId

def checkSignature (flags : Flags) (b : Bytes) : Run Unit :=
  match b.getLast? with
  | none => .ok ()
  | some t => do
    checkBareSignature flags b.dropLast
    if flags.has .strictEncoding then checkHashType flags t

def checkKey (flags : Flags) (b : Bytes) : Run Unit :=
  if flags.has .strictEncoding then
    require (((b.head? = some 2 ∨ b.head? = some 3) ∧ b.length = 33) ∨
      (b.head? = some 4 ∧ b.length = 65)) .keyEncoding
  else .ok ()

end BitcoinCash.Encoding
