import BitcoinCash.Digest.Ripemd160
import BitcoinCash.Key.Public
import BitcoinCash.Machine.Number
import BitcoinCash.Transaction.Basic

namespace BitcoinCash.Lock

def p2pkh (h : Bytes) : Script :=
  ⟨Opcode.dup :: Opcode.hash160 :: 20 :: (h ++ [Opcode.equalVerify, Opcode.checkSig])⟩

def p2pkhKey (k : PublicKey) : Script := p2pkh k.hash

def p2sh (redeem : Script) : Script :=
  ⟨Opcode.hash160 :: 20 :: (BitcoinCash.hash160 redeem.bytes ++ [Opcode.equal])⟩

def maxKeys : Nat := 20

def pushes : List Bytes → Except ScriptError Bytes
  | [] => .ok []
  | d :: ds => do
    let b ← Push.data d
    let bs ← pushes ds
    return b ++ bs

def multisigScript (required : Nat) (keys : List PublicKey) : Except ScriptError Script := do
  let m ← Push.minimal (Number.encode required)
  let ks ← pushes (keys.map PublicKey.toBytes)
  let n ← Push.minimal (Number.encode keys.length)
  return ⟨m ++ ks ++ n ++ [Opcode.checkMultiSig]⟩

def multisig (required : Nat) (keys : List PublicKey) : Except TransactionError Script :=
  if keys.isEmpty ∨ maxKeys < keys.length then .error (.multisigKeys keys.length)
  else if required = 0 ∨ keys.length < required then
    .error (.multisigThreshold required keys.length)
  else
    match multisigScript required keys with
    | .ok s => .ok s
    | .error e => .error (.script e)

end BitcoinCash.Lock
