import BitcoinCash.Ecdsa.Nonce
import BitcoinCash.Key.Private
import BitcoinCash.Signature.Basic

namespace BitcoinCash.Ecdsa

open Secp256k1

def digest? (digest : Bytes) (o : ByteOrder) : Option Bytes :=
  if digest.length = 32 then some (o.arrange digest) else none

def inverse (a : Int) : Except CryptoError Int :=
  match Modular.inverse a n with
  | .ok w => .ok w
  | .error _ => .error .noInverse

/-- The signature of the number `e` by the secret `d` with nonce `k`; none if a component
vanishes. -/
def signWith (d e k : Int) : Except CryptoError (Option Signature) :=
  match Point.g.mul k with
  | .infinity => .ok none
  | .affine x y => do
    let r := x % n
    let s := (← inverse k) * (e + d * r) % n
    if r = 0 ∨ s = 0 then return none
    else
      let id : UInt8 := (if y % 2 = 1 then 1 else 0) + (if n ≤ x then 2 else 0)
      return some { r, s, recoveryId := some id : Signature }.toLowS

def signFrom (d : Int) (digest : Bytes) : (limit : Nat) → (skip : UInt32) →
    Except CryptoError Signature
  | 0, _ => .error .nonceExhausted
  | limit + 1, skip => do
    let k ← deterministicNonce d digest skip
    match ← signWith d (Integer.ofBytes digest .big) k with
    | some sig => return sig
    | none => signFrom d digest limit (skip + 1)

/-- The signature of a digest in order `o`, with its recovery id and a low `s`. -/
def sign (digest : Bytes) (key : Option PrivateKey) (o : ByteOrder := .big) :
    Except CryptoError Signature :=
  match digest? digest o with
  | none => .error (.signedDigestLength digest.length)
  | some h =>
    match key with
    | none => .error .noPrivateKey
    | some key => signFrom key.scalar h counterLimit 0

end BitcoinCash.Ecdsa
