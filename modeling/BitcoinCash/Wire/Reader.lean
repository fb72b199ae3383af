import BitcoinCash.Bytes.Basic

namespace BitcoinCash

inductive WireError
  | endOfData
  deriving DecidableEq, Repr

def WireError.message : WireError → String
  | .endOfData => "unexpected end of data"

/-- The state is the unread rest. -/
abbrev Reader := EStateM WireError Bytes

namespace Reader

def bytes (n : Nat) : Reader Bytes := fun rest ↦
  let b := rest.take n
  if b.length = n then .ok b (rest.drop n) else .error .endOfData rest

def natLE (width : Nat) : Reader Nat := do
  return (← bytes width).toNatLE

def u8 : Reader UInt8 := do
  return UInt8.ofNat (← natLE 1)

def u16 : Reader UInt16 := do
  return UInt16.ofNat (← natLE 2)

def u32 : Reader UInt32 := do
  return UInt32.ofNat (← natLE 4)

def u64 : Reader UInt64 := do
  return UInt64.ofNat (← natLE 8)

/-- A number in one, three, five or nine bytes; any of the four widths is accepted for any
number it can hold. -/
def compactSize : Reader UInt64 := do
  let tag ← u8
  if tag = 0xff then u64
  else if tag = 0xfe then return (← u32).toUInt64
  else if tag = 0xfd then return (← u16).toUInt64
  else return tag.toUInt64

def varBytes : Reader Bytes := do
  let n ← compactSize
  bytes n.toNat

end Reader

def Wire.ofCompactSize (b : Bytes) : Except WireError (UInt64 × Nat) :=
  match Reader.compactSize b with
  | .ok v rest => .ok (v, b.length - rest.length)
  | .error e _ => .error e

end BitcoinCash
