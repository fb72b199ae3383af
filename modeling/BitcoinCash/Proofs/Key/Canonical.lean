import BitcoinCash.Proofs.Key.Encoding
import BitcoinCash.Proofs.Secp256k1.ChordTangent

namespace BitcoinCash

open Secp256k1
open Fallible (bind_eq_ok pure_eq_ok)

theorem toBytes_coordinate {a : ℤ} (h : Reduced a) :
    Integer.toBytes a 32 .big = .ok (Bytes.ofNatBE 32 a.toNat) :=
  Integer.toBytes_eq_ofNatBE h.1 (h.2.trans (by decide))

theorem Secp256k1.Point.ofCoordinates_eq_ok {x y : ℤ} {a : Point} :
    ofCoordinates x y = .ok a ↔ OnCurve x y ∧ a = .affine x y := by
  rw [ofCoordinates, bind_eq_ok]
  constructor
  · intro h
    obtain ⟨_, hcheck, ha⟩ := h
    exact ⟨check_affine_eq_ok.1 hcheck, (pure_eq_ok.1 ha).symm⟩
  · intro h
    obtain ⟨hcurve, ha⟩ := h
    exact ⟨(), check_affine_eq_ok.2 hcurve, pure_eq_ok.2 ha.symm⟩

namespace PublicKey

variable {b : Bytes} {key : PublicKey}

theorem check_point (key : PublicKey) : key.point.check = .ok () :=
  Point.check_affine_eq_ok.2 key.onCurve

theorem toSec1_compressed (key : PublicKey) : key.point.toSec1 true = .ok key.toCompressed := by
  rw [point, Point.toSec1, toBytes_coordinate key.onCurve.1]
  rfl

theorem toSec1_uncompressed (key : PublicKey) : key.point.toSec1 false = .ok key.toUncompressed := by
  rw [point, Point.toSec1, toBytes_coordinate key.onCurve.1, toBytes_coordinate key.onCurve.2.1]
  rfl

/-- The compressed form read off the other one: the parity in its last byte and the coordinate
after its tag. -/
def compress (b : Bytes) : Bytes := (2 ||| (b.getLastD 0 &&& 1)) :: (b.drop 1).take 32

theorem parity_bit (n : ℕ) :
    2 ||| (UInt8.ofNat n &&& 1) = (if n % 2 = 1 then 3 else 2 : UInt8) := by
  have hbyte (x : UInt8) : 2 ||| (x &&& 1) = (if x.toNat % 2 = 1 then 3 else 2 : UInt8) := by
    refine Bytes.of_toNat_lt x.toNat_lt ?_
    decide +kernel
  have hparity : n % 256 % 2 = n % 2 := by omega
  rw [hbyte, UInt8.toNat_ofNat', hparity]

theorem toCompressed_eq_compress (key : PublicKey) :
    key.toCompressed = compress key.toUncompressed := by
  have hlast : key.toUncompressed.getLastD 0 = UInt8.ofNat key.y.toNat := by
    have hy : Bytes.ofNatBE 32 key.y.toNat =
        Bytes.ofNatBE 31 (key.y.toNat / 256) ++ [UInt8.ofNat key.y.toNat] := List.reverse_cons
    rw [toUncompressed, hy, ← List.append_assoc, ← List.cons_append]
    exact List.getLastD_concat
  have hx : (Bytes.ofNatBE 32 key.x.toNat).length = 32 := Bytes.length_ofNatBE 32 _
  have hparity : key.y.toNat % 2 = 1 ↔ key.y % 2 = 1 := by
    have := key.onCurve.2.1.1
    omega
  rw [compress, hlast, parity_bit, if_congr hparity rfl rfl, toUncompressed, List.drop_one,
    List.tail_cons, List.take_left' hx, toCompressed]

theorem eq_of_ofSec1 (h : Point.ofSec1 b = .ok key.point) :
    b = key.toCompressed ∨ b = key.toUncompressed := by
  cases b with
  | nil => cases h
  | cons tag t =>
    rw [Point.ofSec1] at h
    split_ifs at h with hshort hlong
    · left
      obtain ⟨htag, hlen⟩ := hshort
      obtain ⟨y, hpoint, hcurve, hparity⟩ := Point.ofX_eq_ok_iff.1 h
      obtain ⟨hx, hy⟩ := Point.affine.inj hpoint
      rw [decide_eq_true_iff, ← hy] at hparity
      rw [toCompressed, hx, Integer.ofNatBE_ofBytes hlen, if_congr hparity rfl rfl]
      split_ifs with h3
      · rw [h3]
      · rw [htag.resolve_right h3]
    · right
      obtain ⟨htag, hlen⟩ := hlong
      obtain ⟨-, hpoint⟩ := Point.ofCoordinates_eq_ok.1 h
      obtain ⟨hx, hy⟩ := Point.affine.inj hpoint
      have hfirst : (t.take 32).length = 32 := by
        rw [List.length_take, hlen]
        rfl
      have hsecond : (t.drop 32).length = 32 := by
        rw [List.length_drop, hlen]
      rw [toUncompressed, hx, hy, Integer.ofNatBE_ofBytes hfirst, Integer.ofNatBE_ofBytes hsecond,
        List.take_append_drop, htag]

theorem ofBytes_eq_ok_iff : ofBytes b = .ok key ↔ key.toBytes = b := by
  constructor
  · intro h
    have hne : b.isEmpty = false := by
      cases b with
      | nil => cases h
      | cons => rfl
    simp only [ofBytes, hne] at h
    obtain ⟨a, ha, hkey⟩ := bind_eq_ok.1 h
    obtain ⟨rfl, hcompressed⟩ := ofPoint_eq_ok_iff.1 hkey
    rw [toBytes, hcompressed]
    obtain hb | hb := eq_of_ofSec1 ha
    · rw [if_pos, hb]
      rw [hb, key.length_toCompressed]
      rfl
    · rw [if_neg, hb]
      rw [hb, key.length_toUncompressed]
      decide
  · intro h
    rw [← h]
    exact key.ofBytes_toBytes

/-- Keys are read from what is written for them and from nothing else, and each of the encodings of
a point that passes the check is the key's own. -/
theorem encodings_canonical :
    (∀ (b : Bytes) (key : PublicKey), ofBytes b = .ok key →
      key.point.check = .ok () ∧ key.toBytes = b) ∧
    ∀ (a : Point) (compressed : Bool), a.check = .ok () →
      ∃ key, ofPoint a compressed = .ok key ∧ ofBytes key.toBytes = .ok key ∧ key.point = a ∧
        key.compressed = compressed ∧ a.toSec1 true = .ok key.toCompressed ∧
        a.toSec1 false = .ok key.toUncompressed ∧
        key.toCompressed = compress key.toUncompressed := by
  constructor
  · intro b key h
    exact ⟨key.check_point, ofBytes_eq_ok_iff.1 h⟩
  · intro a compressed ha
    cases a with
    | infinity => cases ha
    | affine x y =>
      let key : PublicKey := ⟨x, y, compressed, Point.check_affine_eq_ok.1 ha⟩
      exact ⟨key, ofPoint_eq_ok_iff.2 ⟨rfl, rfl⟩, key.ofBytes_toBytes, rfl, rfl,
        key.toSec1_compressed, key.toSec1_uncompressed, key.toCompressed_eq_compress⟩

theorem encodings_canonical_odd :
    let b : Bytes := 3 :: Bytes.ofNatBE 32
      0x79be667ef9dcbbac55a06295ce870b07029bfcdb2dce28d959f2815b16f81798
    let a := Point.g.negate
    (∃ key, ofBytes b = .ok key ∧ key.point.check = .ok () ∧ key.toBytes = b) ∧
      a.check = .ok () ∧
      ∃ key, ofPoint a true = .ok key ∧ ofBytes key.toBytes = .ok key ∧ key.point = a ∧
        key.compressed = true ∧ a.toSec1 true = .ok key.toCompressed ∧
        a.toSec1 false = .ok key.toUncompressed ∧
        key.toCompressed = compress key.toUncompressed := by
  intro b a
  have hread : (ofBytes b).isOk := by decide +kernel
  have hcheck : a.check = .ok () := by decide +kernel
  refine ⟨?_, hcheck, encodings_canonical.2 a true hcheck⟩
  match hb : ofBytes b, hread with
  | .ok key, _ => exact ⟨key, rfl, encodings_canonical.1 b key hb⟩

end PublicKey

end BitcoinCash
