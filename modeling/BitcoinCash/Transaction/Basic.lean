import BitcoinCash.Digest.Sha256
import BitcoinCash.Machine.Halt
import BitcoinCash.Script.Basic
import BitcoinCash.Wire.Reader
import BitcoinCash.CryptoError

namespace BitcoinCash

structure TxId where
  bytes : Bytes
  length_bytes : bytes.length = 32
  deriving DecidableEq, Repr

structure TxOutput where
  satoshis : UInt64
  lockingScript : Script
  deriving DecidableEq, Repr

structure TxInput where
  sourceId : TxId
  sourceIndex : UInt32
  sequence : UInt32 := 0xffffffff
  unlockingScript : Script := .empty
  /-- The output that is spent, if it is known; it is never written. -/
  source : Option TxOutput := none
  deriving DecidableEq, Repr

structure Transaction where
  version : UInt32 := 1
  inputs : List TxInput := []
  outputs : List TxOutput := []
  lockTime : UInt32 := 0
  deriving DecidableEq, Repr

inductive TxField
  | version
  | inputCount
  | sourceId
  | sourceIndex
  | unlockingScript
  | sequence
  | outputCount
  | satoshis
  | lockingScript
  | lockTime
  deriving DecidableEq, Repr

def TxField.name : TxField → String
  | .version => "version"
  | .inputCount => "input count"
  | .sourceId => "source txid"
  | .sourceIndex => "output index"
  | .unlockingScript => "unlocking script"
  | .sequence => "sequence number"
  | .outputCount => "output count"
  | .satoshis => "satoshis"
  | .lockingScript => "locking script"
  | .lockTime => "lock time"

inductive TransactionError
  | inputOutOfRange (index count : Nat)
  | missingSource (index : Nat)
  | multisigKeys (count : Nat)
  | multisigThreshold (required count : Nat)
  | singleWithoutOutput (index count : Nat)
  | unknownSource (index : Nat)
  | noSigners
  | reading (field : TxField) (e : WireError)
  | trailing (count : Nat)
  | hex (e : HexError)
  | idHex (e : HexError)
  | idLength (got : Nat)
  | script (e : ScriptError)
  | spend (r : Rejection)
  | fault (f : Fault)
  | crypto (e : CryptoError)
  deriving DecidableEq, Repr

def TransactionError.message : TransactionError → String
  | .inputOutOfRange index count =>
    "invalid transaction: input index " ++ toString index ++ " out of range (tx has " ++
      toString count ++ " inputs)"
  | .missingSource index =>
    "invalid transaction: missing source output on input " ++ toString index
  | .multisigKeys count =>
    "invalid transaction: multisig needs 1 to 20 keys, got " ++ toString count
  | .multisigThreshold required count =>
    "invalid transaction: multisig threshold " ++ toString required ++ " invalid for " ++
      toString count ++ " keys"
  | .singleWithoutOutput index count =>
    "invalid sighash type: SIGHASH_SINGLE for input " ++ toString index ++ " but tx has " ++
      toString count ++ " outputs"
  | .unknownSource index => "signing error: missing source output on input " ++ toString index
  | .noSigners => "signing error: multisig unlock needs at least one signer"
  | .reading field e => "serialization error: reading " ++ field.name ++ ": " ++ e.message
  | .trailing count =>
    "serialization error: trailing " ++ toString count ++ " bytes after transaction"
  | .hex e => "serialization error: invalid hex: " ++ e.message
  | .idHex e => "serialization error: invalid txid hex: " ++ e.message
  | .idLength got => "serialization error: txid must be 32 bytes, got " ++ toString got
  | .script e => "script error: " ++ e.message
  | .spend r => "script evaluation failed: " ++ r.report
  | .fault .outOfRange => "script evaluation failed: place out of range"
  | .fault .overflow => "script evaluation failed: number out of range"
  | .fault .underflow => "script evaluation failed: size out of range"
  | .fault .divideByZero => "script evaluation failed: division by zero"
  | .crypto e => "primitives error: " ++ e.message

namespace TxId

def ofBytes? (b : Bytes) : Option TxId :=
  if h : b.length = 32 then some ⟨b, h⟩ else none

/-- The id from its digits, which show its bytes last first. -/
def ofHex (s : String) : Except TransactionError TxId :=
  match Hex.decode s with
  | .error e => .error (.idHex e)
  | .ok b =>
    if h : b.length = 32 then .ok ⟨b.reverse, by simpa using h⟩ else .error (.idLength b.length)

def toHex (id : TxId) : String := Hex.encode id.bytes.reverse

def isNull (id : TxId) : Bool := id.bytes.all (· == 0)

end TxId

namespace Transaction

def input (tx : Transaction) (i : Nat) : Except TransactionError TxInput :=
  match tx.inputs[i]? with
  | some input => .ok input
  | none => .error (.inputOutOfRange i tx.inputs.length)

def sourceOutput (tx : Transaction) (i : Nat) : Except TransactionError TxOutput := do
  match (← tx.input i).source with
  | some output => return output
  | none => throw (.unknownSource i)

def totalOutput (tx : Transaction) : Nat :=
  tx.outputs.foldl (fun total o ↦ total + o.satoshis.toNat) 0

def totalInputFrom : (i : Nat) → List TxInput → Except TransactionError Nat
  | _, [] => .ok 0
  | i, input :: inputs =>
    match input.source with
    | none => .error (.missingSource i)
    | some output => do
      let total ← totalInputFrom (i + 1) inputs
      return output.satoshis.toNat + total

def totalInput (tx : Transaction) : Except TransactionError Nat :=
  totalInputFrom 0 tx.inputs

def isCoinbase (tx : Transaction) : Bool :=
  match tx.inputs with
  | [input] =>
    input.sourceId.isNull && (input.sourceIndex == 0xffffffff || input.sequence == 0xffffffff)
  | _ => false

def addInputFrom (tx : Transaction) (id : String) (index : UInt32) (script : String)
    (satoshis : UInt64) : Except TransactionError Transaction := do
  let sourceId ← TxId.ofHex id
  match Script.ofHex script with
  | .error e => throw (.script e)
  | .ok lockingScript =>
    let input : TxInput :=
      { sourceId, sourceIndex := index, source := some { satoshis, lockingScript } }
    return { tx with inputs := tx.inputs ++ [input] }

def modifyInput (tx : Transaction) (i : Nat) (f : TxInput → TxInput) : Transaction :=
  { tx with inputs := tx.inputs.modify i f }

end Transaction

end BitcoinCash
