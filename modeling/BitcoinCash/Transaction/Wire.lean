import BitcoinCash.Transaction.Basic
import BitcoinCash.Wire.Writer

namespace BitcoinCash

abbrev TxReader := EStateM TransactionError Bytes

namespace TxReader

def field {α : Type} (name : TxField) (read : Reader α) : TxReader α := fun rest ↦
  match read rest with
  | .ok a rest => .ok a rest
  | .error e rest => .error (.reading name e) rest

/-- `n` items one after the other; stops at the first that fails. -/
def count {α : Type} (item : TxReader α) : (n : Nat) → TxReader (List α)
  | 0 => return []
  | n + 1 => do
    let a ← item
    let as ← count item n
    return a :: as

end TxReader

open TxReader (field)

namespace TxId

def reader : Reader TxId := fun rest ↦
  if h : (rest.take 32).length = 32 then .ok ⟨rest.take 32, h⟩ (rest.drop 32)
  else .error .endOfData rest

end TxId

namespace TxOutput

def toBytes (o : TxOutput) : Bytes :=
  Wire.u64 o.satoshis ++ Wire.varBytes o.lockingScript.bytes

def reader : TxReader TxOutput := do
  let satoshis ← field .satoshis .u64
  let script ← field .lockingScript .varBytes
  return { satoshis, lockingScript := ⟨script⟩ }

end TxOutput

namespace TxInput

def outpoint (input : TxInput) : Bytes :=
  input.sourceId.bytes ++ Wire.u32 input.sourceIndex

def toBytesWith (input : TxInput) (script : Bytes) (sequence : UInt32) : Bytes :=
  input.outpoint ++ Wire.varBytes script ++ Wire.u32 sequence

def toBytes (input : TxInput) : Bytes :=
  input.toBytesWith input.unlockingScript.bytes input.sequence

def reader : TxReader TxInput := do
  let sourceId ← field .sourceId TxId.reader
  let sourceIndex ← field .sourceIndex .u32
  let script ← field .unlockingScript .varBytes
  let sequence ← field .sequence .u32
  return { sourceId, sourceIndex, unlockingScript := ⟨script⟩, sequence }

end TxInput

namespace Transaction

def toBytes (tx : Transaction) : Bytes :=
  Wire.u32 tx.version ++ Wire.size tx.inputs.length ++ tx.inputs.flatMap TxInput.toBytes ++
    Wire.size tx.outputs.length ++ tx.outputs.flatMap TxOutput.toBytes ++ Wire.u32 tx.lockTime

def reader : TxReader Transaction := do
  let version ← field .version .u32
  let inputCount ← field .inputCount .compactSize
  let inputs ← TxReader.count TxInput.reader inputCount.toNat
  let outputCount ← field .outputCount .compactSize
  let outputs ← TxReader.count TxOutput.reader outputCount.toNat
  let lockTime ← field .lockTime .u32
  return { version, inputs, outputs, lockTime }

def ofBytes (b : Bytes) : Except TransactionError Transaction :=
  match reader b with
  | .ok tx [] => .ok tx
  | .ok _ rest => .error (.trailing rest.length)
  | .error e _ => .error e

def toHex (tx : Transaction) : String := Hex.encode tx.toBytes

def ofHex (s : String) : Except TransactionError Transaction :=
  match Hex.decode s with
  | .ok b => ofBytes b
  | .error e => .error (.hex e)

def id (tx : Transaction) : TxId := ⟨sha256d tx.toBytes, length_sha256d _⟩

end Transaction

end BitcoinCash
