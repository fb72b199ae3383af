import BitcoinCash.Proofs.Fallible
import BitcoinCash.Proofs.Integer.Octets
import BitcoinCash.Proofs.Key.Group
import BitcoinCash.Proofs.Secp256k1.Decompress

namespace BitcoinCash

open Secp256k1
open Fallible (bind_eq_ok)

theorem ofBytes_coordinate {a : ℤ} (h : Reduced a) :
    Integer.ofBytes (Bytes.ofNatBE 32 a.toNat) .big = a :=
  Integer.ofBytes_ofNatBE h.1 (h.2.trans (by decide))

namespace PublicKey

variable (key : PublicKey)

theorem ofSec1_toCompressed : Point.ofSec1 key.toCompressed = .ok key.point := by
  have htag : (if key.y % 2 = 1 then 3 else 2 : UInt8) = 2 ∨
      (if key.y % 2 = 1 then 3 else 2 : UInt8) = 3 := by
    split
    · exact .inr rfl
    · exact .inl rfl
  have hodd : key.y % 2 = 1 ↔ (if key.y % 2 = 1 then 3 else 2 : UInt8) = 3 := by
    split
    next h => exact iff_of_true h rfl
    next h => exact iff_of_false h (by decide)
  rw [toCompressed, Point.ofSec1, if_pos ⟨htag, Bytes.length_ofNatBE 32 _⟩,
    ofBytes_coordinate key.onCurve.1]
  exact Point.ofX_eq_ok_iff.2 ⟨key.y, rfl, key.onCurve, hodd.trans decide_eq_true_iff.symm⟩

theorem ofSec1_toUncompressed : Point.ofSec1 key.toUncompressed = .ok key.point := by
  have hx : (Bytes.ofNatBE 32 key.x.toNat).length = 32 := Bytes.length_ofNatBE 32 _
  have hlen : (Bytes.ofNatBE 32 key.x.toNat ++ Bytes.ofNatBE 32 key.y.toNat).length = 64 := by
    rw [List.length_append, hx, Bytes.length_ofNatBE]
  have hcheck : Point.check (.affine key.x key.y) = .ok () := by
    obtain ⟨hx, hy, heq⟩ := key.onCurve
    rw [Point.check, if_neg (not_not_intro ⟨hx, hy⟩), if_neg (not_not_intro heq)]
  rw [toUncompressed, Point.ofSec1, if_neg (fun h ↦ absurd h.1 (by decide)), if_pos ⟨rfl, hlen⟩,
    List.take_left' hx, List.drop_left' hx, ofBytes_coordinate key.onCurve.1,
    ofBytes_coordinate key.onCurve.2.1, Point.ofCoordinates, hcheck]
  rfl

theorem length_toCompressed : key.toCompressed.length = 33 := by
  rw [toCompressed, List.length_cons, Bytes.length_ofNatBE]

theorem length_toUncompressed : key.toUncompressed.length = 65 := by
  rw [toUncompressed, List.length_cons, List.length_append, Bytes.length_ofNatBE,
    Bytes.length_ofNatBE]

theorem length_toBytes : key.toBytes.length = 33 ∨ key.toBytes.length = 65 := by
  rw [toBytes]
  split
  · exact .inl key.length_toCompressed
  · exact .inr key.length_toUncompressed

theorem ofBytes_toBytes : ofBytes key.toBytes = .ok key := by
  have hread {b : Bytes} (hb : b ≠ []) (hpoint : Point.ofSec1 b = .ok key.point)
      (hlen : decide (b.length = 33) = key.compressed) : ofBytes b = .ok key := by
    have hempty : b.isEmpty = false := by simpa using hb
    simp only [ofBytes, hempty, hpoint, hlen]
    exact ofPoint_eq_ok_iff.2 ⟨rfl, rfl⟩
  rw [toBytes]
  split
  next hc =>
    refine hread (List.cons_ne_nil _ _) key.ofSec1_toCompressed ?_
    rw [key.length_toCompressed, hc]
    rfl
  next hc =>
    refine hread (List.cons_ne_nil _ _) key.ofSec1_toUncompressed ?_
    rw [key.length_toUncompressed, eq_false_of_ne_true hc]
    rfl

end PublicKey

end BitcoinCash
