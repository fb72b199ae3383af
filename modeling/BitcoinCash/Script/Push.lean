import BitcoinCash.Script.Error

namespace BitcoinCash.Push

/-- What a push of `n` bytes starts with under the shortest length field. -/
def header (n : Nat) : Except ScriptError Bytes :=
  if n ≤ 75 then .ok [UInt8.ofNat n]
  else if n < 0x100 then .ok (Opcode.pushData1 :: Bytes.ofNatLE 1 n)
  else if n < 0x10000 then .ok (Opcode.pushData2 :: Bytes.ofNatLE 2 n)
  else if n < 0x100000000 then .ok (Opcode.pushData4 :: Bytes.ofNatLE 4 n)
  else .error .dataTooBig

def data (d : Bytes) : Except ScriptError Bytes := do
  let h ← header d.length
  return h ++ d

def opcode? : Bytes → Option Opcode
  | [] => some 0
  | [x] =>
    if 1 ≤ x ∧ x ≤ 16 then some (0x50 + x)
    else if x = 0x81 then some Opcode.negate1
    else none
  | _ => none

def minimal (d : Bytes) : Except ScriptError Bytes :=
  match opcode? d with
  | some op => .ok [op]
  | none => data d

end BitcoinCash.Push
