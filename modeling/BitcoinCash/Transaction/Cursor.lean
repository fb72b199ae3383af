import BitcoinCash.Transaction.Wire
import BitcoinCash.Wire.Cursor

namespace BitcoinCash

abbrev TxCursor := EStateM TransactionError Cursor

namespace TxCursor

def field {α : Type} (name : TxField) (read : CursorReader α) : TxCursor α := fun c ↦
  match read c with
  | .ok a c => .ok a c
  | .error (.wire e) c => .error (.reading name e) c
  | .error (.fault f) c => .error (.fault f) c

/-- How many of `n` announced items are given room beforehand: no more than bytes are left. -/
def room (n : Nat) : TxCursor Nat := fun c ↦
  match c.remaining with
  | .ok left => .ok (min n left) c
  | .error f => .error (.fault f) c

def count {α : Type} (item : TxCursor α) : (n : Nat) → TxCursor (List α)
  | 0 => return []
  | n + 1 => do
    let a ← item
    let as ← count item n
    return a :: as

def sourceId : CursorReader TxId := do
  let b ← CursorReader.bytes 32
  if h : b.length = 32 then return ⟨b, h⟩ else throw (.fault .outOfRange)

def output : TxCursor TxOutput := do
  let satoshis ← field .satoshis .u64
  let script ← field .lockingScript .varBytes
  return { satoshis, lockingScript := ⟨script⟩ }

def input : TxCursor TxInput := do
  let sourceId ← field .sourceId sourceId
  let sourceIndex ← field .sourceIndex .u32
  let script ← field .unlockingScript .varBytes
  let sequence ← field .sequence .u32
  return { sourceId, sourceIndex, unlockingScript := ⟨script⟩, sequence }

def transaction : TxCursor Transaction := do
  let version ← field .version .u32
  let inputCount ← field .inputCount .compactSize
  let _ ← room inputCount.toNat
  let inputs ← count input inputCount.toNat
  let outputCount ← field .outputCount .compactSize
  let _ ← room outputCount.toNat
  let outputs ← count output outputCount.toNat
  let lockTime ← field .lockTime .u32
  return { version, inputs, outputs, lockTime }

end TxCursor

def Transaction.scan (b : Bytes) : Except TransactionError Transaction :=
  match TxCursor.transaction { data := b } with
  | .ok tx c =>
    match c.remaining with
    | .ok 0 => .ok tx
    | .ok left => .error (.trailing left)
    | .error f => .error (.fault f)
  | .error e _ => .error e

end BitcoinCash
