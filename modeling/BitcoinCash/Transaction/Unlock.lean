import BitcoinCash.Ecdsa.Sign
import BitcoinCash.Signature.Der
import BitcoinCash.Transaction.Preimage

namespace BitcoinCash

inductive Unlocker
  | p2pkh (key : PrivateKey) (type : SighashType)
  /-- By the holders of several keys, in the order of the locking script; the redeem script is
  given where the output pays to its hash. -/
  | multisig (keys : List PrivateKey) (type : SighashType) (redeem : Option Script)

namespace Unlocker

def signature (key : PrivateKey) (tx : Transaction) (i : Nat) (code : Option Script)
    (t : SighashType) : Except TransactionError Bytes := do
  let digest ← tx.inputHash i t code
  let written := do
    let sig ← Ecdsa.sign digest (some key)
    { sig with sighashType := some t.toByte : Signature }.toTransaction
  match written with
  | .ok b => return b
  | .error e => throw (.crypto e)

def push (d : Bytes) : Except TransactionError Bytes :=
  match Push.data d with
  | .ok b => .ok b
  | .error e => .error (.script e)

def signatures (tx : Transaction) (i : Nat) (code : Option Script) (t : SighashType) :
    List PrivateKey → Except TransactionError Bytes
  | [] => .ok []
  | key :: keys => do
    let b ← push (← signature key tx i code t)
    let bs ← signatures tx i code t keys
    return b ++ bs

def sign (u : Unlocker) (tx : Transaction) (i : Nat) : Except TransactionError Script :=
  match u with
  | .p2pkh key t => do
    let sig ← signature key tx i none t
    match key.publicKey with
    | .error e => throw (.crypto e)
    | .ok pub => return ⟨(← push sig) ++ (← push pub.toBytes)⟩
  | .multisig keys t redeem =>
    if keys.isEmpty then .error .noSigners
    else do
      let sigs ← signatures tx i redeem t keys
      match redeem with
      | none => return ⟨0 :: sigs⟩
      | some r => return ⟨0 :: (sigs ++ (← push r.bytes))⟩

def lengthEstimate : Unlocker → Nat
  | .p2pkh _ _ => 107
  | .multisig keys _ redeem =>
    1 + 74 * keys.length +
      match redeem with
      | none => 0
      | some r => 3 + r.length

def p2sh (unlocking redeem : Script) : Except TransactionError Script := do
  return ⟨unlocking.bytes ++ (← push redeem.bytes)⟩

end Unlocker

def Transaction.signInput (tx : Transaction) (i : Nat) (u : Unlocker) :
    Except TransactionError Transaction := do
  let script ← u.sign tx i
  return tx.modifyInput i fun input ↦ { input with unlockingScript := script }

/-- A step of signing, with the transaction so far for state. -/
abbrev Signing := EStateM TransactionError Transaction

def Signing.input (i : Nat) (u : Unlocker) : Signing Unit := do
  match (← get).signInput i u with
  | .ok tx => set tx
  | .error e => throw e

end BitcoinCash
