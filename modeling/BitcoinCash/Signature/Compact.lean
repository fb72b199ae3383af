import BitcoinCash.Signature.Basic

namespace BitcoinCash.Signature

/-- The header is 27 and the recovery id, and 4 more for a compressed key. -/
def toCompact (sig : Signature) (compressed : Bool) : Except CryptoError Bytes :=
  match sig.recoveryId with
  | none => .error .noRecoveryId
  | some id =>
    if 3 < id then .error (.recoveryId id)
    else do
      let r ← Integer.toBytes sig.r 32 .big
      let s ← Integer.toBytes sig.s 32 .big
      return (27 + id + if compressed then 4 else 0) :: (r ++ s)

def ofCompact (b : Bytes) : Except CryptoError (Signature × Bool) :=
  if b.length ≠ 65 then .error (.compactLength b.length)
  else
    let tag := b.headD 0
    if tag < 27 ∨ 34 < tag then .error (.recoveryId tag)
    else do
      let header := tag - 27
      let sig ← ofComponents (b.tail.take 32) (b.tail.drop 32)
      return ({ sig with recoveryId := some (header &&& 3) }, header &&& 4 ≠ 0)

end BitcoinCash.Signature
