import BitcoinCash.Script.Basic

namespace BitcoinCash.Script

def isP2pkh (s : Script) : Bool :=
  s.bytes.length = 25 && s.bytes.take 3 = [Opcode.dup, Opcode.hash160, 20] &&
    s.bytes.drop 23 = [Opcode.equalVerify, Opcode.checkSig]

def isP2sh (s : Script) : Bool :=
  s.bytes.length = 23 && s.bytes.take 2 = [Opcode.hash160, 20] && s.bytes.drop 22 = [Opcode.equal]

def looksLikeKey (d : Bytes) : Bool :=
  match d with
  | [] => false
  | tag :: b => (tag = 4 && b.length = 64) || ((tag = 2 || tag = 3) && b.length = 32)

def isP2pk (s : Script) : Bool :=
  match s.chunks with
  | .ok [key, last] => last.op = Opcode.checkSig && key.data.any looksLikeKey
  | _ => false

def isData (s : Script) : Bool :=
  s.bytes.take 1 = [Opcode.returnOp] || s.bytes.take 2 = [0, Opcode.returnOp]

/-- `m`, pushes of `n` keys, `n` and the check, for `1 ≤ m ≤ n`. -/
def isMultisigChunks : List Chunk → Bool
  | [] => false
  | required :: cs =>
    match cs.reverse with
    | last :: total :: keys =>
      match Opcode.smallNumber? required.op, Opcode.smallNumber? total.op with
      | some m, some n =>
        keys.all (fun c ↦ c.data.any (!·.isEmpty)) && 1 ≤ m && m ≤ n && n = keys.length &&
          last.op = Opcode.checkMultiSig
      | _, _ => false
    | _ => false

def isMultisig (s : Script) : Bool :=
  match s.chunks with
  | .ok cs => isMultisigChunks cs
  | .error _ => false

def isPushOnly (s : Script) : Bool :=
  match s.chunks with
  | .ok cs => cs.all fun c ↦ c.op ≤ Opcode.sixteen
  | .error _ => false

def publicKeyHash (s : Script) : Except ScriptError Bytes :=
  if s.isP2pkh then .ok ((s.bytes.drop 3).take 20) else .error .notP2pkh

def scriptHash (s : Script) : Except ScriptError Bytes :=
  if s.isP2sh then .ok ((s.bytes.drop 2).take 20) else .error .notP2sh

end BitcoinCash.Script
