import BitcoinCash.Signature.Basic

namespace BitcoinCash

namespace Der

/-- The magnitude of `v`, after a zero byte if its highest bit is set; one zero byte for zero. -/
def integer (v : Int) : Bytes :=
  match Integer.magnitudeBytes v with
  | [] => [0]
  | x :: b => if x &&& 0x80 ≠ 0 then 0 :: x :: b else x :: b

def encode (r s : Int) : Bytes :=
  let rb := integer r
  let sb := integer s
  0x30 :: UInt8.ofNat (4 + rb.length + sb.length) ::
    (0x02 :: UInt8.ofNat rb.length :: rb ++ 0x02 :: UInt8.ofNat sb.length :: sb)

def header (b : Bytes) : UInt8 × Nat × Bytes :=
  match b with
  | marker :: length :: rest => (marker, length.toNat, rest)
  | _ => (0, 0, [])

/-- The bodies of the two integers of an encoding; bytes after the declared length are ignored. -/
def bodies (b : Bytes) : Except DerFlaw (Bytes × Bytes) :=
  let (tag, length, rest) := header b
  let (rTag, rLength, afterR) := header (rest.take length)
  let (sTag, sLength, afterS) := header (afterR.drop rLength)
  let r := afterR.take rLength
  let s := afterS.take sLength
  if b.length < 8 then .error .tooShort
  else if tag ≠ 0x30 then .error .noHeader
  else if rest.length < length ∨ length < 6 then .error .badLength
  else if rTag ≠ 0x02 then .error .noFirstMarker
  else if rLength = 0 ∨ length < rLength + 5 then .error .badRLength
  else if sTag ≠ 0x02 then .error .noSecondMarker
  else if sLength = 0 ∨ afterS.length < sLength then .error .badSLength
  else if r.headD 0 &&& 0x80 ≠ 0 ∨ s.headD 0 &&& 0x80 ≠ 0 then .error .negative
  else .ok (r, s)

end Der

namespace Signature

def toDer (sig : Signature) : Bytes := Der.encode sig.r sig.s

def ofDer (b : Bytes) : Except CryptoError Signature :=
  match Der.bodies b with
  | .ok (r, s) => ofComponents r s
  | .error flaw => .error (.der flaw)

def toTransaction (sig : Signature) : Except CryptoError Bytes :=
  match sig.sighashType with
  | some t => .ok (sig.toDer ++ [t])
  | none => .error .noSighashType

def ofTransaction (b : Bytes) : Except CryptoError Signature :=
  match b.getLast? with
  | none => .error .emptyTransactionSignature
  | some t => do
    let sig ← ofDer b.dropLast
    return { sig with sighashType := some t }

end Signature

end BitcoinCash
