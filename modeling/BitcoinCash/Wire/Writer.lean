import BitcoinCash.Bytes.Basic

namespace BitcoinCash.Wire

def u8 (v : UInt8) : Bytes := [v]

def u32 (v : UInt32) : Bytes := Bytes.ofNatLE 4 v.toNat

def u64 (v : UInt64) : Bytes := Bytes.ofNatLE 8 v.toNat

def compactSizeLength (v : UInt64) : Nat :=
  if v ≤ 0xfc then 1 else if v ≤ 0xffff then 3 else if v ≤ 0xffffffff then 5 else 9

def compactSize (v : UInt64) : Bytes :=
  if v ≤ 0xfc then [v.toUInt8]
  else if v ≤ 0xffff then 0xfd :: Bytes.ofNatLE 2 v.toNat
  else if v ≤ 0xffffffff then 0xfe :: Bytes.ofNatLE 4 v.toNat
  else 0xff :: Bytes.ofNatLE 8 v.toNat

def size (n : Nat) : Bytes := compactSize (UInt64.ofNat n)

def varBytes (b : Bytes) : Bytes := size b.length ++ b

end BitcoinCash.Wire
