import BitcoinCash.Bytes.Basic
import BitcoinCash.Bytes.Hex
import BitcoinCash.CryptoError
import BitcoinCash.Digest.Block
import BitcoinCash.Digest.Hmac
import BitcoinCash.Digest.Ripemd160
import BitcoinCash.Digest.Sha1
import BitcoinCash.Digest.Sha256
import BitcoinCash.Ecdsa.Nonce
import BitcoinCash.Ecdsa.Recover
import BitcoinCash.Ecdsa.Sign
import BitcoinCash.Ecdsa.Verify
import BitcoinCash.Integer.Modular
import BitcoinCash.Integer.Octets
import BitcoinCash.Key.Private
import BitcoinCash.Key.Public
import BitcoinCash.Machine.Answers
import BitcoinCash.Machine.Checked
import BitcoinCash.Machine.Consultation
import BitcoinCash.Machine.Encoding
import BitcoinCash.Machine.Evaluate
import BitcoinCash.Machine.Execute
import BitcoinCash.Machine.Flags
import BitcoinCash.Machine.Frame
import BitcoinCash.Machine.Halt
import BitcoinCash.Machine.InPlace
import BitcoinCash.Machine.Instruction
import BitcoinCash.Machine.Limits
import BitcoinCash.Machine.LockTime
import BitcoinCash.Machine.Number
import BitcoinCash.Machine.Operation
import BitcoinCash.Machine.Progress
import BitcoinCash.Machine.SignatureCheck
import BitcoinCash.Machine.Stack
import BitcoinCash.Machine.Trace
import BitcoinCash.Script.Basic
import BitcoinCash.Script.Builder
import BitcoinCash.Script.Chunk
import BitcoinCash.Script.Error
import BitcoinCash.Script.Opcode
import BitcoinCash.Script.Pattern
import BitcoinCash.Script.Push
import BitcoinCash.Script.Scan
import BitcoinCash.Secp256k1.Jacobian
import BitcoinCash.Secp256k1.Point
import BitcoinCash.Signature.Basic
import BitcoinCash.Signature.Compact
import BitcoinCash.Signature.Der
import BitcoinCash.Text.Blank
import BitcoinCash.Text.QuotedChar
import BitcoinCash.Transaction.Basic
import BitcoinCash.Transaction.Cursor
import BitcoinCash.Transaction.Lock
import BitcoinCash.Transaction.Preimage
import BitcoinCash.Transaction.Unlock
import BitcoinCash.Transaction.Verify
import BitcoinCash.Transaction.Wire
import BitcoinCash.Wire.Cursor
import BitcoinCash.Wire.Reader
import BitcoinCash.Wire.Sequence
import BitcoinCash.Wire.Value
import BitcoinCash.Wire.Writer
import BitcoinCash.Proofs.Bytes.Digits
import BitcoinCash.Proofs.Bytes.Hex
import BitcoinCash.Proofs.Digest.Sha256
import BitcoinCash.Proofs.Ecdsa.Equation
import BitcoinCash.Proofs.Ecdsa.Malleability
import BitcoinCash.Proofs.Ecdsa.Nonce
import BitcoinCash.Proofs.Ecdsa.Recover
import BitcoinCash.Proofs.Ecdsa.RecoveryFailure
import BitcoinCash.Proofs.Ecdsa.Rfc6979
import BitcoinCash.Proofs.Ecdsa.Sign
import BitcoinCash.Proofs.Ecdsa.Signer
import BitcoinCash.Proofs.Fallible
import BitcoinCash.Proofs.Integer.Modular
import BitcoinCash.Proofs.Integer.Octets
import BitcoinCash.Proofs.Key.Canonical
import BitcoinCash.Proofs.Key.Derivation
import BitcoinCash.Proofs.Key.Encoding
import BitcoinCash.Proofs.Key.Group
import BitcoinCash.Proofs.Machine.Admitted
import BitcoinCash.Proofs.Machine.Bounds
import BitcoinCash.Proofs.Machine.Branches
import BitcoinCash.Proofs.Machine.Checked
import BitcoinCash.Proofs.Machine.Checks
import BitcoinCash.Proofs.Machine.Counters
import BitcoinCash.Proofs.Machine.Elements
import BitcoinCash.Proofs.Machine.Encoding
import BitcoinCash.Proofs.Machine.Faultless
import BitcoinCash.Proofs.Machine.Flags
import BitcoinCash.Proofs.Machine.History
import BitcoinCash.Proofs.Machine.InPlace
import BitcoinCash.Proofs.Machine.Locality
import BitcoinCash.Proofs.Machine.LockTime
import BitcoinCash.Proofs.Machine.LowS
import BitcoinCash.Proofs.Machine.Meets
import BitcoinCash.Proofs.Machine.MultiSig
import BitcoinCash.Proofs.Machine.Number
import BitcoinCash.Proofs.Machine.NumberCodec
import BitcoinCash.Proofs.Machine.NumberWidth
import BitcoinCash.Proofs.Machine.PayToMultiSig
import BitcoinCash.Proofs.Machine.PayToPublicKeyHash
import BitcoinCash.Proofs.Machine.PayToScriptHash
import BitcoinCash.Proofs.Machine.Perform
import BitcoinCash.Proofs.Machine.Permits
import BitcoinCash.Proofs.Machine.Program
import BitcoinCash.Proofs.Machine.Push
import BitcoinCash.Proofs.Machine.PushOnly
import BitcoinCash.Proofs.Machine.PushPolicy
import BitcoinCash.Proofs.Machine.RaisedLimits
import BitcoinCash.Proofs.Machine.Reachable
import BitcoinCash.Proofs.Machine.RemovalOrder
import BitcoinCash.Proofs.Machine.Run
import BitcoinCash.Proofs.Machine.ScriptCode
import BitcoinCash.Proofs.Machine.ShortestNumber
import BitcoinCash.Proofs.Machine.ShortestPush
import BitcoinCash.Proofs.Machine.SignatureRules
import BitcoinCash.Proofs.Machine.SingleSig
import BitcoinCash.Proofs.Machine.SoftFork
import BitcoinCash.Proofs.Machine.Spend
import BitcoinCash.Proofs.Machine.Stack
import BitcoinCash.Proofs.Machine.Step
import BitcoinCash.Proofs.Machine.Stepping
import BitcoinCash.Proofs.Machine.StrictDer
import BitcoinCash.Proofs.Machine.Structured
import BitcoinCash.Proofs.Machine.Visits
import BitcoinCash.Proofs.Script.Assembly
import BitcoinCash.Proofs.Script.Builder
import BitcoinCash.Proofs.Script.Chunk
import BitcoinCash.Proofs.Script.Codec
import BitcoinCash.Proofs.Script.Name
import BitcoinCash.Proofs.Script.Pieces
import BitcoinCash.Proofs.Script.Push
import BitcoinCash.Proofs.Script.Removal
import BitcoinCash.Proofs.Script.Scan
import BitcoinCash.Proofs.Script.Shortest
import BitcoinCash.Proofs.Script.WellFormed
import BitcoinCash.Proofs.Secp256k1.ChordTangent
import BitcoinCash.Proofs.Secp256k1.Decompress
import BitcoinCash.Proofs.Secp256k1.Field
import BitcoinCash.Proofs.Secp256k1.Group
import BitcoinCash.Proofs.Secp256k1.Jacobian
import BitcoinCash.Proofs.Secp256k1.Multiples
import BitcoinCash.Proofs.Secp256k1.Order
import BitcoinCash.Proofs.Secp256k1.Primality
import BitcoinCash.Proofs.Secp256k1.Scalar
import BitcoinCash.Proofs.Signature.Der
import BitcoinCash.Proofs.Signature.WireForms
import BitcoinCash.Proofs.Text.Blank
import BitcoinCash.Proofs.Transaction.Coverage
import BitcoinCash.Proofs.Transaction.LegacyPreimage
import BitcoinCash.Proofs.Transaction.LengthEstimate
import BitcoinCash.Proofs.Transaction.MultiSig
import BitcoinCash.Proofs.Transaction.MultiSigOutput
import BitcoinCash.Proofs.Transaction.PayToPublicKeyHash
import BitcoinCash.Proofs.Transaction.PayToScriptHash
import BitcoinCash.Proofs.Transaction.Preimage
import BitcoinCash.Proofs.Transaction.PrefixFree
import BitcoinCash.Proofs.Transaction.ProtectedPreimage
import BitcoinCash.Proofs.Transaction.Scan
import BitcoinCash.Proofs.Transaction.SignedType
import BitcoinCash.Proofs.Transaction.SigningOrder
import BitcoinCash.Proofs.Transaction.Spelling
import BitcoinCash.Proofs.Transaction.Wire
import BitcoinCash.Proofs.Wire.CompactSize
import BitcoinCash.Proofs.Wire.Cursor
import BitcoinCash.Proofs.Wire.Reader
import BitcoinCash.Proofs.Wire.Sequence
