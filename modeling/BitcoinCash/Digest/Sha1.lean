import BitcoinCash.Digest.Block

namespace BitcoinCash

namespace Sha1

open Digest

structure Chain where
  a : UInt32
  b : UInt32
  c : UInt32
  d : UInt32
  e : UInt32

def Chain.start : Chain :=
  ⟨0x67452301, 0xefcdab89, 0x98badcfe, 0x10325476, 0xc3d2e1f0⟩

def extend (w : Array UInt32) : Array UInt32 :=
  let n := w.size
  w.push <| rotateLeft
    (w.getD (n - 3) 0 ^^^ w.getD (n - 8) 0 ^^^ w.getD (n - 14) 0 ^^^ w.getD (n - 16) 0) 1

def schedule (block : Array UInt32) : Array UInt32 :=
  Nat.repeat extend 64 block

def groups : List ((UInt32 → UInt32 → UInt32 → UInt32) × UInt32) :=
  [(fun b c d ↦ (b &&& c) ||| (~~~b &&& d), 0x5a827999),
    (fun b c d ↦ b ^^^ c ^^^ d, 0x6ed9eba1),
    (fun b c d ↦ (b &&& c) ||| (b &&& d) ||| (c &&& d), 0x8f1bbcdc),
    (fun b c d ↦ b ^^^ c ^^^ d, 0xca62c1d6)]

def round (mix : UInt32 → UInt32 → UInt32 → UInt32) (k : UInt32) (s : Chain) (w : UInt32) : Chain :=
  ⟨rotateLeft s.a 5 + mix s.b s.c s.d + s.e + k + w, s.a, rotateLeft s.b 30, s.c, s.d⟩

def rounds : List ((UInt32 → UInt32 → UInt32 → UInt32) × UInt32) → Chain → List UInt32 → Chain
  | [], s, _ => s
  | (mix, k) :: gs, s, ws => rounds gs ((ws.take 20).foldl (round mix k) s) (ws.drop 20)

def compress (s : Chain) (block : Array UInt32) : Chain :=
  let r := rounds groups s (schedule block).toList
  ⟨s.a + r.a, s.b + r.b, s.c + r.c, s.d + r.d, s.e + r.e⟩

def Chain.toBytes (s : Chain) : Bytes :=
  bytesBE s.a ++ bytesBE s.b ++ bytesBE s.c ++ bytesBE s.d ++ bytesBE s.e

end Sha1

def sha1 (b : Bytes) : Bytes :=
  (Digest.foldBlocks Sha1.compress Sha1.Chain.start
    (Digest.wordsBE (Digest.pad (Bytes.ofNatBE 8) b))).toBytes

@[simp]
theorem length_sha1 (b : Bytes) : (sha1 b).length = 20 := by
  simp [sha1, Sha1.Chain.toBytes]

end BitcoinCash
