import BitcoinCash.Machine.Halt
import BitcoinCash.Wire.Reader

namespace BitcoinCash

structure Cursor where
  data : Bytes
  place : Nat := 0
  deriving DecidableEq, Repr

namespace Cursor

def slice (c : Cursor) (i j : Nat) : Except Fault Bytes :=
  if i ≤ j ∧ j ≤ c.data.length then .ok ((c.data.drop i).take (j - i)) else .error .outOfRange

def remaining (c : Cursor) : Except Fault Nat :=
  if c.place ≤ c.data.length then .ok (c.data.length - c.place) else .error .underflow

end Cursor

inductive CursorError
  | wire (e : WireError)
  | fault (f : Fault)
  deriving DecidableEq, Repr

abbrev CursorReader := EStateM CursorError Cursor

namespace CursorReader

/-- The next `n` bytes; the place stays where it is if fewer are left. -/
def bytes (n : Nat) : CursorReader Bytes := fun c ↦
  if c.data.length < c.place + n then .error (.wire .endOfData) c
  else match c.slice c.place (c.place + n) with
    | .ok b => .ok b { c with place := c.place + n }
    | .error f => .error (.fault f) c

def array (n : Nat) : CursorReader Bytes := do
  let b ← bytes n
  if b.length = n then return b else throw (.fault .outOfRange)

def natLE (width : Nat) : CursorReader Nat := do
  return (← array width).toNatLE

def u8 : CursorReader UInt8 := do
  return UInt8.ofNat (← natLE 1)

def u16 : CursorReader UInt16 := do
  return UInt16.ofNat (← natLE 2)

def u32 : CursorReader UInt32 := do
  return UInt32.ofNat (← natLE 4)

def u64 : CursorReader UInt64 := do
  return UInt64.ofNat (← natLE 8)

def compactSize : CursorReader UInt64 := do
  let tag ← u8
  if tag = 0xff then u64
  else if tag = 0xfe then return (← u32).toUInt64
  else if tag = 0xfd then return (← u16).toUInt64
  else return tag.toUInt64

def varBytes : CursorReader Bytes := do
  let n ← compactSize
  bytes n.toNat

end CursorReader

end BitcoinCash
