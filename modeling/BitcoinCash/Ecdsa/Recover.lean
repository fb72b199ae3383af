import BitcoinCash.Ecdsa.Sign

namespace BitcoinCash.Ecdsa

open Secp256k1

/-- The compressed key `(-e / r) · G + (s / r) · R` for the point `R` that `id` selects. -/
def recover (digest : Bytes) (sig : Signature) (id : UInt8) (o : ByteOrder := .big) :
    Except CryptoError PublicKey := do
  if 3 < id then throw (.recoveryId id)
  match digest? digest o with
  | none => throw .recoveredDigestLength
  | some h =>
    if ¬ (InRange sig.r ∧ InRange sig.s) then throw .componentsOutOfRange
    let point ← Point.ofX (id &&& 1 = 1) (if id &&& 2 = 0 then sig.r else sig.r + n)
    if ¬ (point.mul n).isInfinity then throw (.point .notOfGroupOrder)
    let w ← inverse sig.r
    PublicKey.ofPoint (Point.mulAdd (-Integer.ofBytes h .big * w % n) (sig.s * w % n) point) true

def recoveryId (digest : Bytes) (sig : Signature) (key : PublicKey) (o : ByteOrder := .big) :
    Except CryptoError UInt8 :=
  let leads (id : UInt8) : Bool :=
    match recover digest sig id o with
    | .ok candidate => candidate == key
    | .error _ => false
  match [0, 1, 2, 3].find? leads with
  | some id => .ok id
  | none => .error .noRecoveryFactor

end BitcoinCash.Ecdsa
