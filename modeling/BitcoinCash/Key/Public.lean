import BitcoinCash.Secp256k1.Point
import BitcoinCash.Digest.Ripemd160

namespace BitcoinCash

open Secp256k1

structure PublicKey where
  x : Int
  y : Int
  compressed : Bool
  onCurve : OnCurve x y

namespace PublicKey

def point (k : PublicKey) : Point := .affine k.x k.y

/-- Two keys are the same if their points are, whatever their encodings. -/
instance : BEq PublicKey := ⟨fun a b ↦ a.point == b.point⟩

def ofPoint (a : Point) (compressed : Bool) : Except CryptoError PublicKey :=
  match a with
  | .infinity => .error (.point .atInfinity)
  | .affine x y =>
    if h : OnCurve x y then .ok ⟨x, y, compressed, h⟩
    else if ¬ ((0 ≤ x ∧ x < p) ∧ (0 ≤ y ∧ y < p)) then .error (.point .outsideField)
    else .error (.point .offCurve)

/-- The key prefers the encoding it was read from. -/
def ofBytes (b : Bytes) : Except CryptoError PublicKey := do
  if b.isEmpty then throw .emptyPublicKey
  ofPoint (← Point.ofSec1 b) (b.length = 33)

def ofHex (s : String) : Except CryptoError PublicKey :=
  match Hex.decode s with
  | .ok b => ofBytes b
  | .error e => .error (.hex e)

def toCompressed (k : PublicKey) : Bytes :=
  (if k.y % 2 = 1 then 3 else 2) :: Bytes.ofNatBE 32 k.x.toNat

def toUncompressed (k : PublicKey) : Bytes :=
  4 :: (Bytes.ofNatBE 32 k.x.toNat ++ Bytes.ofNatBE 32 k.y.toNat)

def toBytes (k : PublicKey) : Bytes :=
  if k.compressed then k.toCompressed else k.toUncompressed

def toHex (k : PublicKey) : String := Hex.encode k.toBytes

def hash (k : PublicKey) : Bytes := hash160 k.toBytes

end PublicKey

end BitcoinCash
