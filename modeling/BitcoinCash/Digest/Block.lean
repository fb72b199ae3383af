import BitcoinCash.Bytes.Basic

namespace BitcoinCash.Digest

def rotateLeft (x n : UInt32) : UInt32 := (x <<< n) ||| (x >>> (32 - n))

def rotateRight (x n : UInt32) : UInt32 := (x >>> n) ||| (x <<< (32 - n))

def word (a b c d : UInt8) : UInt32 :=
  (a.toUInt32 <<< 24) ||| (b.toUInt32 <<< 16) ||| (c.toUInt32 <<< 8) ||| d.toUInt32

def wordsBE : Bytes → List UInt32
  | a :: b :: c :: d :: rest => word a b c d :: wordsBE rest
  | _ => []

def wordsLE : Bytes → List UInt32
  | a :: b :: c :: d :: rest => word d c b a :: wordsLE rest
  | _ => []

def bytesBE (w : UInt32) : Bytes :=
  [(w >>> 24).toUInt8, (w >>> 16).toUInt8, (w >>> 8).toUInt8, w.toUInt8]

def bytesLE (w : UInt32) : Bytes :=
  [w.toUInt8, (w >>> 8).toUInt8, (w >>> 16).toUInt8, (w >>> 24).toUInt8]

/-- A one bit, as many zero bits as bring the whole to full blocks of 64 bytes, and the length
of `b` in bits, written by `length`. -/
def pad (length : Nat → Bytes) (b : Bytes) : Bytes :=
  b ++ 0x80 :: (List.replicate ((119 - b.length % 64) % 64) 0 ++ length (8 * b.length))

structure Progress (σ : Type) where
  chain : σ
  block : Array UInt32

def Progress.absorb {σ : Type} (compress : σ → Array UInt32 → σ) (p : Progress σ)
    (w : UInt32) : Progress σ :=
  let block := p.block.push w
  if block.size = 16 then ⟨compress p.chain block, #[]⟩ else ⟨p.chain, block⟩

def foldBlocks {σ : Type} (compress : σ → Array UInt32 → σ) (start : σ)
    (words : List UInt32) : σ :=
  (words.foldl (Progress.absorb compress) ⟨start, #[]⟩).chain

@[simp]
theorem length_bytesBE (w : UInt32) : (bytesBE w).length = 4 := rfl

@[simp]
theorem length_bytesLE (w : UInt32) : (bytesLE w).length = 4 := rfl

end BitcoinCash.Digest
