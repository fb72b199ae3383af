import BitcoinCash.Machine.Evaluate
import BitcoinCash.Transaction.Preimage

namespace BitcoinCash.Transaction

def checkedHash (tx : Transaction) (satoshis : UInt64) (code : Script) (i : Nat) (t : UInt8)
    (flags : Flags) : Except TransactionError Bytes :=
  let t : SighashType := ⟨t.toUInt32⟩
  if t.usesForkId ∧ flags.has .forkId then tx.protectedHash i code.bytes t satoshis
  else tx.legacyHash i code.bytes t

/-- A signature or a key that cannot be read fails its check. -/
def verifySignature (tx : Transaction) (satoshis : UInt64) (sig key : Bytes) (code : Script)
    (i : Nat) (flags : Flags) : Except Rejection Bool :=
  match sig.getLast? with
  | none => .ok false
  | some t =>
    match Signature.ofDer sig.dropLast, PublicKey.ofBytes key with
    | .ok s, .ok k =>
      match tx.checkedHash satoshis code i t flags with
      | .ok digest => .ok (Ecdsa.accepts digest s k)
      | .error e => .error (.context .invalidSigHashType e.message)
    | _, _ => .ok false

def context (tx : Transaction) (satoshis : UInt64) : Context where
  verify sig key code i flags := tx.verifySignature satoshis sig key code i flags
  lockTime := tx.lockTime
  version := tx.version
  sequence i :=
    match tx.inputs[i]? with
    | some input => input.sequence
    | none => 0xffffffff

def verifyInput (tx : Transaction) (i : Nat) (output : TxOutput) (flags : Flags) :
    Except TransactionError Unit := do
  let input ← tx.input i
  let env : Environment := { flags, context := some (tx.context output.satoshis), input := i }
  match evaluate env input.unlockingScript output.lockingScript with
  | .ok () => return ()
  | .error (.rejected r) => throw (.spend r)
  | .error (.fault f) => throw (.fault f)

def verifyFrom (tx : Transaction) (flags : Flags) :
    (i : Nat) → List TxInput → Except TransactionError Unit
  | _, [] => .ok ()
  | i, input :: inputs =>
    match input.source with
    | none => .error (.missingSource i)
    | some output => do
      tx.verifyInput i output flags
      verifyFrom tx flags (i + 1) inputs

def verifyAll (tx : Transaction) (flags : Flags) : Except TransactionError Unit :=
  tx.verifyFrom flags 0 tx.inputs

end BitcoinCash.Transaction
