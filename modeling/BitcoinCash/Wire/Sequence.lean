import BitcoinCash.Wire.Cursor
import BitcoinCash.Wire.Value

namespace BitcoinCash

def Wire.written (vs : List WireValue) : Bytes :=
  vs.foldl (fun buffer v ↦ buffer ++ v.encode) []

namespace WireKind

def readAt : WireKind → CursorReader WireValue
  | .bytes n => return .bytes (← CursorReader.bytes n)
  | .u8 => return .u8 (← CursorReader.u8)
  | .u16 => return .u16 (← CursorReader.u16)
  | .u32 => return .u32 (← CursorReader.u32)
  | .u64 => return .u64 (← CursorReader.u64)
  | .hash => return .bytes (← CursorReader.array 32)
  | .compactSize => return .compactSize (← CursorReader.compactSize)
  | .varBytes => return .varBytes (← CursorReader.varBytes)

def readEach : List WireKind → CursorReader (List WireValue)
  | [] => return []
  | k :: ks => do
    let v ← k.readAt
    let vs ← readEach ks
    return v :: vs

end WireKind

namespace Cursor

def after (c : Cursor) (k : WireKind) : Cursor :=
  match k.readAt c with
  | .ok _ c' => c'
  | .error _ c' => c'

/-- The cursor before, between and after calls of which any may fail. -/
def visits (c : Cursor) : List WireKind → List Cursor
  | [] => [c]
  | k :: ks => c :: (c.after k).visits ks

end Cursor

end BitcoinCash
