import BitcoinCash.Script.Basic

namespace BitcoinCash

/-- A step of construction, with the script so far for state. -/
abbrev Builder := EStateM ScriptError Script

namespace Builder

def append (b : Bytes) : Builder Unit :=
  modify fun s ↦ ⟨s.bytes ++ b⟩

/-- The value, or a failure that leaves the script as it is. -/
def ofExcept {α : Type} (e : Except ScriptError α) : Builder α :=
  match e with
  | .ok a => pure a
  | .error e => throw e

def push (d : Bytes) : Builder Unit := do
  append (← ofExcept (Push.data d))

def minimalPush (d : Bytes) : Builder Unit := do
  append (← ofExcept (Push.minimal d))

def pushHex (s : String) : Builder Unit :=
  match Hex.decode s with
  | .ok d => push d
  | .error e => throw (.hex e)

def opcodes (ops : List Opcode) : Builder Unit :=
  match ops.find? Opcode.carriesData with
  | some op => throw (.bareOpcode op)
  | none => append ops

/-- The opcode of a chunk, then its length field, then its data. -/
def chunk (c : Chunk) : Builder Unit := do
  append [c.op]
  match c.data with
  | none => pure ()
  | some d =>
    append (← ofExcept (Chunk.lengthField c.op d.length))
    append d

def script (s : Script) : Builder Unit := append s.bytes

def replaceBy (f : Script → Except ScriptError Script) : Builder Unit := do
  set (← ofExcept (f (← get)))

def build (b : Builder Unit) : Except ScriptError Script :=
  match b.run Script.empty with
  | .ok _ s => .ok s
  | .error e _ => .error e

end Builder

end BitcoinCash
