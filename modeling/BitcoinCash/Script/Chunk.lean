import BitcoinCash.Script.Error

namespace BitcoinCash

structure Chunk where
  op : Opcode
  data : Option Bytes
  deriving DecidableEq, Repr

namespace Chunk

/-- The width of the length field after a push that carries data; a push of up to 75 bytes has
its length for opcode and no field. -/
def lengthWidth? (op : Opcode) : Option Nat :=
  if op = 0 then none
  else if op ≤ 75 then some 0
  else if op = Opcode.pushData1 then some 1
  else if op = Opcode.pushData2 then some 2
  else if op = Opcode.pushData4 then some 4
  else none

def read (op : Opcode) (rest : Bytes) : Except ScriptError (Chunk × Bytes) :=
  match lengthWidth? op with
  | none => .ok (⟨op, none⟩, rest)
  | some w =>
    let n := if w = 0 then op.toNat else Bytes.toNatLE (rest.take w)
    let data := (rest.drop w).take n
    if (rest.take w).length < w ∨ data.length < n then .error .dataTooSmall
    else .ok (⟨op, some data⟩, (rest.drop w).drop n)

theorem length_le_of_read {op : Opcode} {rest rest' : Bytes} {c : Chunk}
    (h : read op rest = .ok (c, rest')) : rest'.length ≤ rest.length := by
  unfold read at h
  split at h
  · cases h
    exact Nat.le_refl _
  · extract_lets n data at h
    split at h <;> cases h
    simp only [List.length_drop]
    omega

/-- The chunks of a script, or the failure of a push that runs past its end. -/
def decode : Bytes → Except ScriptError (List Chunk)
  | [] => .ok []
  | op :: rest =>
    match h : read op rest with
    | .error e => .error e
    | .ok (c, rest') =>
      have : rest'.length ≤ rest.length := length_le_of_read h
      do
        let cs ← decode rest'
        return c :: cs
termination_by b => b.length

def lengthField (op : Opcode) (n : Nat) : Except ScriptError Bytes :=
  if op = Opcode.pushData1 then
    if n < 0x100 then .ok (Bytes.ofNatLE 1 n) else .error .dataTooBig
  else if op = Opcode.pushData2 then
    if n < 0x10000 then .ok (Bytes.ofNatLE 2 n) else .error .dataTooBig
  else if op = Opcode.pushData4 then
    if n < 0x100000000 then .ok (Bytes.ofNatLE 4 n) else .error .dataTooBig
  else if op.toNat = n then .ok []
  else .error (.directPush op n)

def encode (c : Chunk) : Except ScriptError Bytes :=
  match c.data with
  | none => .ok [c.op]
  | some d => do
    let l ← lengthField c.op d.length
    return c.op :: (l ++ d)

/-- The concatenation of the encodings; the first chunk without one is reported. -/
def encodeAll : List Chunk → Except ScriptError Bytes
  | [] => .ok []
  | c :: cs => do
    let b ← c.encode
    let bs ← encodeAll cs
    return b ++ bs

def asm (c : Chunk) : String :=
  match c.data with
  | some d => if c.op.carriesData then Hex.encode d else c.op.name
  | none => c.op.name

end Chunk

end BitcoinCash
