import BitcoinCash.Digest.Sha256

namespace BitcoinCash

namespace Ripemd160

open Digest

structure Chain where
  a : UInt32
  b : UInt32
  c : UInt32
  d : UInt32
  e : UInt32

def Chain.start : Chain :=
  ⟨0x67452301, 0xefcdab89, 0x98badcfe, 0x10325476, 0xc3d2e1f0⟩

abbrev Mix := UInt32 → UInt32 → UInt32 → UInt32

/-- Sixteen rounds: their function, their constant, and for each round the word it reads and the
rotation it makes. -/
structure Group where
  mix : Mix
  constant : UInt32
  rounds : List (Nat × UInt32)

def mix1 : Mix := fun x y z ↦ x ^^^ y ^^^ z
def mix2 : Mix := fun x y z ↦ (x &&& y) ||| (~~~x &&& z)
def mix3 : Mix := fun x y z ↦ (x ||| ~~~y) ^^^ z
def mix4 : Mix := fun x y z ↦ (x &&& z) ||| (y &&& ~~~z)
def mix5 : Mix := fun x y z ↦ x ^^^ (y ||| ~~~z)

def leftLine : List Group :=
  [⟨mix1, 0x00000000, List.zip [0, 1, 2, 3, 4, 5, 6, 7, 8, 9, 10, 11, 12, 13, 14, 15]
      [11, 14, 15, 12, 5, 8, 7, 9, 11, 13, 14, 15, 6, 7, 9, 8]⟩,
    ⟨mix2, 0x5a827999, List.zip [7, 4, 13, 1, 10, 6, 15, 3, 12, 0, 9, 5, 2, 14, 11, 8]
      [7, 6, 8, 13, 11, 9, 7, 15, 7, 12, 15, 9, 11, 7, 13, 12]⟩,
    ⟨mix3, 0x6ed9eba1, List.zip [3, 10, 14, 4, 9, 15, 8, 1, 2, 7, 0, 6, 13, 11, 5, 12]
      [11, 13, 6, 7, 14, 9, 13, 15, 14, 8, 13, 6, 5, 12, 7, 5]⟩,
    ⟨mix4, 0x8f1bbcdc, List.zip [1, 9, 11, 10, 0, 8, 12, 4, 13, 3, 7, 15, 14, 5, 6, 2]
      [11, 12, 14, 15, 14, 15, 9, 8, 9, 14, 5, 6, 8, 6, 5, 12]⟩,
    ⟨mix5, 0xa953fd4e, List.zip [4, 0, 5, 9, 7, 12, 2, 10, 14, 1, 3, 8, 11, 6, 15, 13]
      [9, 15, 5, 11, 6, 8, 13, 12, 5, 12, 13, 14, 11, 8, 5, 6]⟩]

def rightLine : List Group :=
  [⟨mix5, 0x50a28be6, List.zip [5, 14, 7, 0, 9, 2, 11, 4, 13, 6, 15, 8, 1, 10, 3, 12]
      [8, 9, 9, 11, 13, 15, 15, 5, 7, 7, 8, 11, 14, 14, 12, 6]⟩,
    ⟨mix4, 0x5c4dd124, List.zip [6, 11, 3, 7, 0, 13, 5, 10, 14, 15, 8, 12, 4, 9, 1, 2]
      [9, 13, 15, 7, 12, 8, 9, 11, 7, 7, 12, 7, 6, 15, 13, 11]⟩,
    ⟨mix3, 0x6d703ef3, List.zip [15, 5, 1, 3, 7, 14, 6, 9, 11, 8, 12, 2, 10, 0, 4, 13]
      [9, 7, 15, 11, 8, 6, 6, 14, 12, 13, 5, 14, 13, 13, 7, 5]⟩,
    ⟨mix2, 0x7a6d76e9, List.zip [8, 6, 4, 1, 3, 11, 15, 0, 5, 12, 2, 13, 9, 7, 10, 14]
      [15, 5, 8, 11, 14, 14, 6, 14, 6, 9, 12, 9, 12, 5, 15, 8]⟩,
    ⟨mix1, 0x00000000, List.zip [12, 15, 10, 4, 1, 5, 8, 7, 6, 2, 13, 14, 0, 3, 9, 11]
      [8, 5, 12, 9, 12, 5, 14, 6, 8, 13, 6, 5, 15, 13, 11, 11]⟩]

def round (block : Array UInt32) (g : Group) (s : Chain) (r : Nat × UInt32) : Chain :=
  ⟨s.e, rotateLeft (s.a + g.mix s.b s.c s.d + block.getD r.1 0 + g.constant) r.2 + s.e, s.b,
    rotateLeft s.c 10, s.d⟩

def runLine (block : Array UInt32) (line : List Group) (s : Chain) : Chain :=
  line.foldl (fun s g ↦ g.rounds.foldl (round block g) s) s

def compress (s : Chain) (block : Array UInt32) : Chain :=
  let l := runLine block leftLine s
  let r := runLine block rightLine s
  ⟨s.b + l.c + r.d, s.c + l.d + r.e, s.d + l.e + r.a, s.e + l.a + r.b, s.a + l.b + r.c⟩

def Chain.toBytes (s : Chain) : Bytes :=
  bytesLE s.a ++ bytesLE s.b ++ bytesLE s.c ++ bytesLE s.d ++ bytesLE s.e

end Ripemd160

def ripemd160 (b : Bytes) : Bytes :=
  (Digest.foldBlocks Ripemd160.compress Ripemd160.Chain.start
    (Digest.wordsLE (Digest.pad (Bytes.ofNatLE 8) b))).toBytes

def hash160 (b : Bytes) : Bytes :=
  ripemd160 (sha256 b)

@[simp]
theorem length_ripemd160 (b : Bytes) : (ripemd160 b).length = 20 := by
  simp [ripemd160, Ripemd160.Chain.toBytes]

@[simp]
theorem length_hash160 (b : Bytes) : (hash160 b).length = 20 :=
  length_ripemd160 _

end BitcoinCash
