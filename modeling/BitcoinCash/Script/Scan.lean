import BitcoinCash.Script.Chunk
import BitcoinCash.Wire.Cursor

namespace BitcoinCash

inductive ScanError
  | script (e : ScriptError)
  | fault (f : Fault)
  deriving DecidableEq, Repr

namespace Chunk

def announcedAt (b : Bytes) (i : Nat) (op : Opcode) (w : Nat) : Except ScanError Nat :=
  if w = 0 then .ok op.toNat
  else if i + 1 + w ≤ b.length then .ok (Bytes.toNatLE ((b.drop (i + 1)).take w))
  else .error (.script .dataTooSmall)

def dataAt (b : Bytes) (i n : Nat) : Except ScanError Bytes :=
  if b.length < i + n then .error (.script .dataTooSmall)
  else (Cursor.slice ⟨b, i⟩ i (i + n)).mapError .fault

/-- The chunk at place `i`, and how many bytes belong to it after its opcode. -/
def readAt (b : Bytes) (i : Nat) : Except ScanError (Chunk × Nat) :=
  match b[i]? with
  | none => .error (.fault .outOfRange)
  | some op =>
    match lengthWidth? op with
    | none => .ok (⟨op, none⟩, 0)
    | some w => do
      let n ← announcedAt b i op w
      let d ← dataAt b (i + 1 + w) n
      return (⟨op, some d⟩, w + n)

def scanFrom (b : Bytes) (i : Nat) : Except ScanError (List Chunk) :=
  if i < b.length then
    match readAt b i with
    | .error e => .error e
    | .ok (c, k) => do
      let cs ← scanFrom b (i + 1 + k)
      return c :: cs
  else .ok []
termination_by b.length - i

def scan (b : Bytes) : Except ScanError (List Chunk) := scanFrom b 0

end Chunk

end BitcoinCash
