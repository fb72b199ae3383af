import BitcoinCash.Transaction.Wire

namespace BitcoinCash

structure SighashType where
  bits : UInt32
  deriving DecidableEq, Repr

inductive Coverage
  | all
  | none
  | single
  deriving DecidableEq, Repr

namespace SighashType

def standard : SighashType := ⟨0x41⟩

def coverage (t : SighashType) : Coverage :=
  if t.bits &&& 0x1f = 2 then .none else if t.bits &&& 0x1f = 3 then .single else .all

def anyoneCanPay (t : SighashType) : Bool := t.bits &&& 0x80 ≠ 0

def usesForkId (t : SighashType) : Bool := t.bits &&& 0x40 ≠ 0

def toByte (t : SighashType) : UInt8 := t.bits.toUInt8

end SighashType

namespace Transaction

def singleOutput (tx : Transaction) (i : Nat) : Except TransactionError TxOutput :=
  match tx.outputs[i]? with
  | some output => .ok output
  | none => .error (.singleWithoutOutput i tx.outputs.length)

namespace Legacy

/-- The inputs as they are covered: the signed one with the script code, any other without a
script, and with sequence number zero unless all outputs are covered. -/
def inputsBytes (tx : Transaction) (i : Nat) (input : TxInput) (code : Bytes) (t : SighashType) :
    Bytes :=
  let signed := input.toBytesWith code input.sequence
  if t.anyoneCanPay then Wire.size 1 ++ signed
  else
    let other (o : TxInput) : Bytes :=
      o.toBytesWith [] (if t.coverage = .all then o.sequence else 0)
    Wire.size tx.inputs.length ++
      (tx.inputs.mapIdx fun j o ↦ if j = i then signed else other o).flatten

def blankOutput : Bytes := Wire.u64 0xffffffffffffffff ++ Wire.varBytes []

/-- The outputs as they are covered; before a single one stand blanks. -/
def outputsBytes (tx : Transaction) (i : Nat) (t : SighashType) : Except TransactionError Bytes :=
  match t.coverage with
  | .none => .ok (Wire.size 0)
  | .single => do
    let output ← tx.singleOutput i
    return Wire.size (i + 1) ++ (List.replicate i blankOutput).flatten ++ output.toBytes
  | .all => .ok (Wire.size tx.outputs.length ++ tx.outputs.flatMap TxOutput.toBytes)

end Legacy

def legacyPreimage (tx : Transaction) (i : Nat) (code : Bytes) (t : SighashType) :
    Except TransactionError Bytes := do
  let input ← tx.input i
  let outputs ← Legacy.outputsBytes tx i t
  return Wire.u32 tx.version ++ Legacy.inputsBytes tx i input code t ++ outputs ++
    Wire.u32 tx.lockTime ++ Wire.u32 t.bits

namespace Protected

def blankDigest : Bytes := List.replicate 32 0

def outpointsDigest (tx : Transaction) (t : SighashType) : Bytes :=
  if t.anyoneCanPay then blankDigest else sha256d (tx.inputs.flatMap TxInput.outpoint)

def sequencesDigest (tx : Transaction) (t : SighashType) : Bytes :=
  if t.anyoneCanPay ∨ t.coverage ≠ .all then blankDigest
  else sha256d (tx.inputs.flatMap fun o ↦ Wire.u32 o.sequence)

def outputsDigest (tx : Transaction) (i : Nat) (t : SighashType) : Except TransactionError Bytes :=
  match t.coverage with
  | .none => .ok blankDigest
  | .single => do
    let output ← tx.singleOutput i
    return sha256d output.toBytes
  | .all => .ok (sha256d (tx.outputs.flatMap TxOutput.toBytes))

end Protected

def protectedPreimage (tx : Transaction) (i : Nat) (code : Bytes) (t : SighashType)
    (satoshis : UInt64) : Except TransactionError Bytes := do
  let input ← tx.input i
  let outputs ← Protected.outputsDigest tx i t
  return Wire.u32 tx.version ++ Protected.outpointsDigest tx t ++ Protected.sequencesDigest tx t ++
    input.outpoint ++ Wire.varBytes code ++ Wire.u64 satoshis ++ Wire.u32 input.sequence ++
    outputs ++ Wire.u32 tx.lockTime ++ Wire.u32 t.bits

def legacyHash (tx : Transaction) (i : Nat) (code : Bytes) (t : SighashType) :
    Except TransactionError Bytes := do
  return sha256d (← tx.legacyPreimage i code t)

def protectedHash (tx : Transaction) (i : Nat) (code : Bytes) (t : SighashType)
    (satoshis : UInt64) : Except TransactionError Bytes := do
  return sha256d (← tx.protectedPreimage i code t satoshis)

def signatureHash (tx : Transaction) (i : Nat) (code : Bytes) (t : SighashType)
    (satoshis : UInt64) : Except TransactionError Bytes :=
  if t.usesForkId then tx.protectedHash i code t satoshis else tx.legacyHash i code t

/-- The digest for an input whose spent output is known; the script code is that output's script
unless another is given. -/
def inputHash (tx : Transaction) (i : Nat) (t : SighashType) (code : Option Script := none) :
    Except TransactionError Bytes := do
  let output ← tx.sourceOutput i
  tx.signatureHash i (code.getD output.lockingScript).bytes t output.satoshis

end Transaction

end BitcoinCash
