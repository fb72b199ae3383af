import BitcoinCash.Machine.Flags
import BitcoinCash.Machine.Halt
import BitcoinCash.Script.Pattern

namespace BitcoinCash

structure Instruction where
  op : Opcode
  data : Bytes
  deriving DecidableEq, Repr

namespace Instruction

def ofChunk (c : Chunk) : Instruction := ⟨c.op, c.data.getD []⟩

def toChunk (i : Instruction) : Chunk :=
  ⟨i.op, if i.op.carriesData then some i.data else none⟩

def name (i : Instruction) : String := i.op.name

/-- Fails wherever it stands, also in a branch that is not run. -/
def isDisabled (flags : Flags) (i : Instruction) : Bool :=
  if i.op ∈ [0x83, 0x8d, 0x8e, 0x95, 0x98, 0x99] then true
  else if i.op ∈ [0x7e, 0x7f, 0x80, 0x81, 0x84, 0x85, 0x86, 0x96, 0x97] then
    !flags.has .monolith
  else false

/-- Looked at also in a branch that is not run. -/
def isConditional (i : Instruction) : Bool := Opcode.ifOp ≤ i.op && i.op ≤ Opcode.endIf

def isPush (i : Instruction) : Bool := i.op ≤ Opcode.pushData4

def pushOfLength (n : Nat) : Opcode :=
  if n ≤ 75 then UInt8.ofNat n
  else if n < 0x100 then Opcode.pushData1
  else if n < 0x10000 then Opcode.pushData2
  else Opcode.pushData4

def shortestPush (d : Bytes) : Opcode :=
  match d with
  | [] => 0
  | [x] =>
    if 1 ≤ x ∧ x ≤ 16 then Opcode.one + x - 1
    else if x = 0x81 then Opcode.negate1
    else pushOfLength 1
  | _ => pushOfLength d.length

def checkShortest (i : Instruction) : Run Unit :=
  require (i.op = shortestPush i.data) (.longPush i.data.length i.op (shortestPush i.data))

def isCounted (i : Instruction) : Bool := Opcode.sixteen < i.op

end Instruction

abbrev Program := List Instruction

namespace Program

def isPushOnly (p : Program) : Bool := p.all fun i ↦ i.op ≤ Opcode.sixteen

def ofScript (s : Script) : Run Program :=
  match s.chunks with
  | .ok cs => .ok (cs.map Instruction.ofChunk)
  | .error e => reject (.malformedPush e)

def toScript (p : Program) : Run Script :=
  match Script.ofChunks (p.map Instruction.toChunk) with
  | .ok s => .ok s
  | .error e => reject (.scriptCode e)

end Program

end BitcoinCash
