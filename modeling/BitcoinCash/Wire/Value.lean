import BitcoinCash.Wire.Reader
import BitcoinCash.Wire.Writer

namespace BitcoinCash

/-- A value together with the form in which it is written. -/
inductive WireValue
  | bytes (b : Bytes)
  | u8 (v : UInt8)
  | u16 (v : UInt16)
  | u32 (v : UInt32)
  | u64 (v : UInt64)
  | compactSize (v : UInt64)
  | varBytes (b : Bytes)
  deriving DecidableEq, Repr

/-- What a reader has to know of a field beforehand. -/
inductive WireKind
  | bytes (n : Nat)
  | u8
  | u16
  | u32
  | u64
  | hash
  | compactSize
  | varBytes
  deriving DecidableEq, Repr

namespace WireValue

def kind : WireValue → WireKind
  | .bytes b => .bytes b.length
  | .u8 _ => .u8
  | .u16 _ => .u16
  | .u32 _ => .u32
  | .u64 _ => .u64
  | .compactSize _ => .compactSize
  | .varBytes _ => .varBytes

def encode : WireValue → Bytes
  | .bytes b => b
  | .u8 v => Wire.u8 v
  | .u16 v => Bytes.ofNatLE 2 v.toNat
  | .u32 v => Wire.u32 v
  | .u64 v => Wire.u64 v
  | .compactSize v => Wire.compactSize v
  | .varBytes b => Wire.varBytes b

end WireValue

def WireKind.read : WireKind → Reader WireValue
  | .bytes n => return .bytes (← Reader.bytes n)
  | .u8 => return .u8 (← Reader.u8)
  | .u16 => return .u16 (← Reader.u16)
  | .u32 => return .u32 (← Reader.u32)
  | .u64 => return .u64 (← Reader.u64)
  | .hash => return .bytes (← Reader.bytes 32)
  | .compactSize => return .compactSize (← Reader.compactSize)
  | .varBytes => return .varBytes (← Reader.varBytes)

end BitcoinCash
