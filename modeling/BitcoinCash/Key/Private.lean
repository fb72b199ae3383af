import BitcoinCash.Key.Public

namespace BitcoinCash

structure PrivateKey where
  scalar : Int
  compressed : Bool
  pos : 0 < scalar
  lt : scalar < Secp256k1.n

namespace PrivateKey

def ofBytes (b : Bytes) : Except CryptoError PrivateKey :=
  if b.length ≠ 32 then .error (.privateKey (.length b.length))
  else
    let d := Integer.ofBytes b .big
    if hpos : ¬ 0 < d then .error (.privateKey .zero)
    else if hlt : ¬ d < Secp256k1.n then .error (.privateKey .notBelowOrder)
    else .ok ⟨d, true, Decidable.not_not.1 hpos, Decidable.not_not.1 hlt⟩

def ofHex (s : String) : Except CryptoError PrivateKey :=
  if s.isEmpty then .error (.privateKey .emptyText)
  else
    match Hex.decode s with
    | .ok b => ofBytes b
    | .error e => .error (.hex e)

def uncompressed (k : PrivateKey) : PrivateKey := { k with compressed := false }

def toBytes (k : PrivateKey) : Bytes := Bytes.ofNatBE 32 k.scalar.toNat

def toHex (k : PrivateKey) : String := Hex.encode k.toBytes

def describe (k : PrivateKey) : String :=
  "PrivateKey \x7b compressed: " ++ (if k.compressed then "true" else "false") ++ ", .. \x7d"

def publicKey (k : PrivateKey) : Except CryptoError PublicKey :=
  PublicKey.ofPoint (Secp256k1.Point.g.mul k.scalar) k.compressed

end PrivateKey

end BitcoinCash
