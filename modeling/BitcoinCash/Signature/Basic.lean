import BitcoinCash.Secp256k1.Jacobian
import BitcoinCash.CryptoError

namespace BitcoinCash

structure Signature where
  r : Int
  s : Int
  /-- Which of the four candidate points was the nonce's. -/
  recoveryId : Option UInt8 := none
  sighashType : Option UInt8 := none
  deriving DecidableEq, Repr

namespace Signature

def hasLowS (sig : Signature) : Bool := sig.s ≤ Secp256k1.halfN

/-- The signature with the lesser of `s` and `n - s`; the parity of the nonce's point flips with
the sign. -/
def toLowS (sig : Signature) : Signature :=
  if sig.hasLowS then sig
  else { sig with s := Secp256k1.n - sig.s, recoveryId := sig.recoveryId.map (· ^^^ 1) }

def checkComponent (c : Component) (v : Int) : Except CryptoError Unit :=
  if v = 0 then .error (.zeroComponent c)
  else if Secp256k1.n ≤ v then .error (.largeComponent c)
  else .ok ()

def ofComponents (r s : Bytes) : Except CryptoError Signature := do
  let r := Integer.ofBytes r .big
  let s := Integer.ofBytes s .big
  checkComponent .r r
  checkComponent .s s
  return { r, s }

end Signature

end BitcoinCash
