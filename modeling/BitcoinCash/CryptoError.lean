import BitcoinCash.Integer.Octets

namespace BitcoinCash

inductive PointFlaw
  | atInfinity
  | outsideField
  | offCurve
  | xOutsideField
  | noPointAt (x : Int)
  | unsupportedEncoding (tag : UInt8) (length : Nat)
  | emptyEncoding
  | notOfGroupOrder
  deriving DecidableEq, Repr

def PointFlaw.message : PointFlaw → String
  | .atInfinity => "point at infinity"
  | .outsideField => "coordinate outside the field"
  | .offCurve => "point does not satisfy the curve equation"
  | .xOutsideField => "x coordinate outside the field"
  | .noPointAt x => "no curve point with x = " ++ Integer.toHex x
  | .unsupportedEncoding tag length =>
    "unsupported encoding: prefix 0x" ++ Hex.encode [tag] ++ ", length " ++ toString length
  | .emptyEncoding => "empty encoding"
  | .notOfGroupOrder => "N·R is not infinity"

inductive PrivateKeyFlaw
  | length (got : Nat)
  | zero
  | notBelowOrder
  | emptyText
  deriving DecidableEq, Repr

def PrivateKeyFlaw.message : PrivateKeyFlaw → String
  | .length got => "expected 32 bytes, got " ++ toString got
  | .zero => "scalar is zero"
  | .notBelowOrder => "scalar is not below the curve order"
  | .emptyText => "private key hex is empty"

inductive DerFlaw
  | tooShort
  | noHeader
  | badLength
  | noFirstMarker
  | badRLength
  | noSecondMarker
  | badSLength
  | negative
  deriving DecidableEq, Repr

def DerFlaw.message : DerFlaw → String
  | .tooShort => "too short"
  | .noHeader => "no header magic"
  | .badLength => "bad length"
  | .noFirstMarker => "no 1st int marker"
  | .badRLength => "bogus R length"
  | .noSecondMarker => "no 2nd int marker"
  | .badSLength => "bogus S length"
  | .negative => "negative integer"

inductive Component
  | r
  | s
  deriving DecidableEq, Repr

def Component.name : Component → String
  | .r => "R"
  | .s => "S"

inductive CryptoError
  | overflow (width : Nat)
  | noInverse
  | hex (e : HexError)
  | point (flaw : PointFlaw)
  | privateKey (flaw : PrivateKeyFlaw)
  | emptyPublicKey
  | der (flaw : DerFlaw)
  | zeroComponent (c : Component)
  | largeComponent (c : Component)
  | emptyTransactionSignature
  | compactLength (got : Nat)
  | recoveryId (got : UInt8)
  | noRecoveryId
  | noSighashType
  | noRecoveryFactor
  | signedDigestLength (got : Nat)
  | recoveredDigestLength
  | componentsOutOfRange
  | noPrivateKey
  /-- A retry counter of 32 bits ran out. -/
  | nonceExhausted
  deriving DecidableEq, Repr

def CryptoError.message : CryptoError → String
  | .overflow width => "value does not fit in " ++ toString width ++ " bytes"
  | .noInverse => "division by zero: operand has no inverse"
  | .hex e => "invalid hex: " ++ e.message
  | .point flaw => "invalid point: " ++ flaw.message
  | .privateKey flaw => "invalid private key: " ++ flaw.message
  | .emptyPublicKey => "invalid public key: pubkey bytes are empty"
  | .der flaw => "malformed input: DER signature: " ++ flaw.message
  | .zeroComponent c => "malformed input: signature " ++ c.name ++ " is zero"
  | .largeComponent c => "malformed input: signature " ++ c.name ++ " is >= curve order"
  | .emptyTransactionSignature => "malformed input: empty transaction signature"
  | .compactLength got =>
    "malformed input: compact signature must be 65 bytes, got " ++ toString got
  | .recoveryId got => "invalid recovery id " ++ toString got.toNat ++ ", expected 0..=3"
  | .noRecoveryId => "invalid state: signature has no recovery id"
  | .noSighashType => "invalid state: signature has no sighash type"
  | .noRecoveryFactor => "no valid recovery factor found for signature"
  | .signedDigestLength got => "invalid state: digest must be 32 bytes, got " ++ toString got
  | .recoveredDigestLength => "malformed input: digest must be 32 bytes"
  | .componentsOutOfRange => "malformed input: signature components must be in (0, N)"
  | .noPrivateKey => "invalid state: no private key to sign with"
  | .nonceExhausted => "nonce search ran out of candidates"

def Integer.toBytes (a : Int) (width : Nat) (o : ByteOrder) : Except CryptoError Bytes :=
  match Integer.toBytes? a width o with
  | some b => .ok b
  | none => .error (.overflow width)

end BitcoinCash
