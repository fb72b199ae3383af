import BitcoinCash.Bytes.Hex

namespace BitcoinCash.Integer

def ofBytes (b : Bytes) (o : ByteOrder) : Int :=
  (o.arrange b).toNatBE

def magnitudeBytes (a : Int) : Bytes :=
  Bytes.digitsBE a.natAbs

/-- The magnitude of `a` behind as many zeros as fill `width` bytes; none if `a` is negative or its
magnitude is longer. -/
def toBytes? (a : Int) (width : Nat) (o : ByteOrder) : Option Bytes :=
  let magnitude := magnitudeBytes a
  if a < 0 then none
  else if width < magnitude.length then none
  else some (o.arrange (List.replicate (width - magnitude.length) 0 ++ magnitude))

def bitLength (n : Nat) : Nat :=
  if n = 0 then 0 else n.log2 + 1

def toHex (a : Int) : String :=
  (if a < 0 then "-" else "") ++ String.ofList (Nat.toDigits 16 a.natAbs)

def ofHex (s : String) : Except HexError Int := do
  return ofBytes (← Hex.decode s) .big

def ofSignedHex? (s : String) : Option Int :=
  let digits (cs : List Char) : Option Nat :=
    if cs.isEmpty then none
    else cs.foldlM (fun n c ↦ do
      let v ← Hex.value? c.toUInt8
      if c.toNat < 128 then some (16 * n + v.toNat) else none) 0
  match s.toList with
  | '-' :: cs => (digits cs).map fun n ↦ -(n : Int)
  | cs => (digits cs).map Int.ofNat

end BitcoinCash.Integer
