
namespace BitcoinCash

abbrev Bytes := List UInt8

namespace Bytes

def toNatLE : Bytes → Nat
  | [] => 0
  | x :: b => x.toNat + 256 * toNatLE b

def toNatBE (b : Bytes) : Nat :=
  b.foldl (fun n x ↦ 256 * n + x.toNat) 0

/-- The lowest `width` digits of `n`, least significant first. -/
def ofNatLE : (width n : Nat) → Bytes
  | 0, _ => []
  | w + 1, n => UInt8.ofNat n :: ofNatLE w (n / 256)

def ofNatBE (width n : Nat) : Bytes :=
  (ofNatLE width n).reverse

def digitsLE (n : Nat) : Bytes :=
  if n = 0 then [] else UInt8.ofNat n :: digitsLE (n / 256)
termination_by n

def digitsBE (n : Nat) : Bytes :=
  (digitsLE n).reverse

@[simp]
theorem length_ofNatLE (width n : Nat) : (ofNatLE width n).length = width := by
  induction width generalizing n with
  | zero => rfl
  | succ w ih => simp [ofNatLE, ih]

@[simp]
theorem length_ofNatBE (width n : Nat) : (ofNatBE width n).length = width := by
  simp [ofNatBE]

end Bytes

inductive ByteOrder
  | big
  | little
  deriving DecidableEq, Repr

/-- Turns a most-significant-first string into order `o`, and back. -/
def ByteOrder.arrange (o : ByteOrder) (b : Bytes) : Bytes :=
  match o with
  | .big => b
  | .little => b.reverse

end BitcoinCash
