import BitcoinCash.Digest.Hmac
import BitcoinCash.Secp256k1.Jacobian
import BitcoinCash.CryptoError

namespace BitcoinCash

namespace Ecdsa

def InRange (v : Int) : Prop := 0 < v ∧ v < Secp256k1.n

instance (v : Int) : Decidable (InRange v) :=
  inferInstanceAs (Decidable (_ ∧ _))

end Ecdsa

/-- The key and the value of the ratchet; the value is the present candidate. -/
structure Ratchet where
  key : Bytes
  value : Bytes
  deriving DecidableEq, Repr

namespace Ratchet

def candidate (t : Ratchet) : Int := Integer.ofBytes t.value .big

/-- Sets a new key from the value and `m`, and a new value from the key. -/
def rekey (t : Ratchet) (m : Bytes) : Ratchet :=
  let key := hmacSha256 t.key (t.value ++ m)
  ⟨key, hmacSha256 key t.value⟩

def turn (t : Ratchet) : Ratchet :=
  { t with value := hmacSha256 t.key t.value }

def start (x h : Bytes) : Ratchet :=
  let t : Ratchet := ⟨List.replicate 32 0, List.replicate 32 1⟩
  ((t.rekey (0 :: (x ++ h))).rekey (1 :: (x ++ h))).turn

def next (t : Ratchet) : Ratchet :=
  (t.rekey [0]).turn

/-- Of the first `limit` candidates from `t` on, the first in range after `skip` others. -/
def search (skip : Nat) : (limit : Nat) → Ratchet → Option Int
  | 0, _ => none
  | limit + 1, t =>
    if skip = 0 ∧ Ecdsa.InRange t.candidate then some t.candidate
    else search (skip - 1) limit t.next

end Ratchet

namespace Ecdsa

def counterLimit : Nat := 0x100000000

def ratchet (d : Int) (digest : Bytes) : Except CryptoError Ratchet := do
  let x ← Integer.toBytes d 32 .big
  let h ← Integer.toBytes (Integer.ofBytes digest .big % Secp256k1.n) 32 .big
  return .start x h

def deterministicNonce (d : Int) (digest : Bytes) (skip : UInt32) : Except CryptoError Int := do
  match (← ratchet d digest).search skip.toNat counterLimit with
  | some k => return k
  | none => throw .nonceExhausted

end Ecdsa

end BitcoinCash
