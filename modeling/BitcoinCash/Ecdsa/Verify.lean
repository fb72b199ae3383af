import BitcoinCash.Ecdsa.Sign

namespace BitcoinCash.Ecdsa

open Secp256k1

inductive VerifyFailure
  | malformedDigest
  | rOutOfRange
  | sOutOfRange
  | pointAtInfinity
  | rMismatch
  deriving DecidableEq, Repr

def VerifyFailure.message : VerifyFailure → String
  | .malformedDigest => "digest is not 32 bytes"
  | .rOutOfRange => "r is not in (0, N)"
  | .sOutOfRange => "s is not in (0, N)"
  | .pointAtInfinity => "u1·G + u2·Q is the point at infinity"
  | .rMismatch => "x coordinate of u1·G + u2·Q does not match r"

/-- Accepts `sig` if `(e / s) · G + (r / s) · Q` has `x` coordinate `r` modulo `n`. -/
def verify (digest : Bytes) (sig : Signature) (key : PublicKey) (o : ByteOrder := .big) :
    Except VerifyFailure Unit :=
  match digest? digest o with
  | none => .error .malformedDigest
  | some h =>
    if ¬ InRange sig.r then .error .rOutOfRange
    else if ¬ InRange sig.s then .error .sOutOfRange
    else
      match inverse sig.s with
      | .error _ => .error .sOutOfRange
      | .ok w =>
        match Point.mulAdd (Integer.ofBytes h .big * w % n) (sig.r * w % n) key.point with
        | .infinity => .error .pointAtInfinity
        | .affine x _ => if x % n = sig.r then .ok () else .error .rMismatch

def accepts (digest : Bytes) (sig : Signature) (key : PublicKey) (o : ByteOrder := .big) : Bool :=
  (verify digest sig key o).isOk

end BitcoinCash.Ecdsa
