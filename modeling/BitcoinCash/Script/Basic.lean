import BitcoinCash.Script.Chunk
import BitcoinCash.Script.Push
import BitcoinCash.Text.Blank

namespace BitcoinCash

structure Script where
  bytes : Bytes
  deriving DecidableEq, Repr

namespace Script

def empty : Script := ⟨[]⟩

def length (s : Script) : Nat := s.bytes.length

instance : Append Script := ⟨fun s t ↦ ⟨s.bytes ++ t.bytes⟩⟩

def chunks (s : Script) : Except ScriptError (List Chunk) := Chunk.decode s.bytes

def ofChunks (cs : List Chunk) : Except ScriptError Script := do
  return ⟨← Chunk.encodeAll cs⟩

-- Text

def toHex (s : Script) : String := Hex.encode s.bytes

def ofHex (s : String) : Except ScriptError Script :=
  match Hex.decode s with
  | .ok b => .ok ⟨b⟩
  | .error e => .error (.hex e)

def describe (s : Script) : String := "Script(" ++ s.toHex ++ ")"

/-- The chunks' texts with blanks between them; the empty text if the script has no chunks
because a push runs past its end. -/
def toAsm (s : Script) : String :=
  match s.chunks with
  | .ok cs => " ".intercalate (cs.map Chunk.asm)
  | .error _ => ""

def wordBytes (word : List Char) : Except ScriptError Bytes :=
  match Opcode.ofName? (String.ofList word) with
  | some op => .ok [op]
  | none =>
    match Hex.decodeChars word with
    | .ok d => Push.data d
    | .error _ => .error (.asmToken (String.ofList word))

def wordsBytes : List (List Char) → Except ScriptError Bytes
  | [] => .ok []
  | w :: ws => do
    let b ← wordBytes w
    let bs ← wordsBytes ws
    return b ++ bs

def ofAsm (s : String) : Except ScriptError Script := do
  return ⟨← wordsBytes (words s.toList)⟩

-- Removal

def filterChunks (s : Script) (keep : Chunk → Bool) : Except ScriptError Script := do
  ofChunks ((← s.chunks).filter keep)

def removePushes (s : Script) (d : Bytes) : Except ScriptError Script := do
  let header ← Push.header d.length
  s.filterChunks fun c ↦ !(c.op == header.headD 0 && c.data == some d)

def removeCodeSeparators (s : Script) : Except ScriptError Script :=
  s.filterChunks fun c ↦ c.op != Opcode.codeSeparator

end Script

end BitcoinCash
