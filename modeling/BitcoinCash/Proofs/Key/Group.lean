import BitcoinCash.Key.Private
import BitcoinCash.Proofs.Secp256k1.Scalar

namespace BitcoinCash

open Secp256k1

namespace PublicKey

def toGroup (key : PublicKey) : curve.Point := Point.toGroup key.onCurve

theorem ofGroup_toGroup (key : PublicKey) : Point.ofGroup key.toGroup = key.point :=
  Point.ofGroup_toGroup key.onCurve

theorem ofPoint_eq_ok_iff {a : Point} {compressed : Bool} {key : PublicKey} :
    ofPoint a compressed = .ok key ↔ a = key.point ∧ key.compressed = compressed := by
  constructor
  · intro h
    unfold ofPoint at h
    split at h
    · cases h
    · split at h
      · cases h
        exact ⟨rfl, rfl⟩
      · split at h <;> cases h
  · rintro ⟨rfl, rfl⟩
    exact dif_pos key.onCurve

theorem point_inj {a b : PublicKey} : a.point = b.point ↔ a.toGroup = b.toGroup := by
  rw [← ofGroup_toGroup, ← ofGroup_toGroup, Point.ofGroup_injective.eq_iff]

theorem beq_iff {a b : PublicKey} : (a == b) = true ↔ a.toGroup = b.toGroup := by
  rw [← point_inj]
  exact beq_iff_eq (a := a.point)

theorem ofPoint_ofGroup {P : curve.Point} (hP : P ≠ 0) (compressed : Bool) :
    ∃ key, ofPoint (Point.ofGroup P) compressed = .ok key ∧ key.toGroup = P ∧
      key.compressed = compressed := by
  cases he : Point.ofGroup P with
  | infinity => exact absurd (Point.ofGroup_eq_infinity_iff.1 he) hP
  | affine x y =>
    have h := Point.onCurve_of_ofGroup he
    refine ⟨⟨x, y, compressed, h⟩, by rw [ofPoint, dif_pos h], ?_, rfl⟩
    apply Point.ofGroup_injective
    rw [ofGroup_toGroup, he]
    rfl

theorem ofPoint_ofGroup_eq_error_iff {P : curve.Point} {compressed : Bool} {e : CryptoError} :
    ofPoint (Point.ofGroup P) compressed = .error e ↔
      Point.ofGroup P = .infinity ∧ e = .point .atInfinity := by
  rcases eq_or_ne P 0 with rfl | hP
  · rw [Point.ofGroup_zero, ofPoint, Except.error.injEq, eq_comm, and_iff_right rfl]
  · obtain ⟨key, hkey, -⟩ := ofPoint_ofGroup hP compressed
    rw [hkey]
    exact iff_of_false nofun fun h ↦ hP (Point.ofGroup_eq_infinity_iff.1 h.1)

end PublicKey

theorem PrivateKey.publicKey_eq_ok (key : PrivateKey) :
    ∃ pub, key.publicKey = .ok pub ∧ pub.toGroup = (key.scalar : Fn) • Point.generator ∧
      pub.compressed = key.compressed := by
  rw [publicKey, Point.mul_generator]
  apply PublicKey.ofPoint_ofGroup
  rw [Ne, Point.smul_generator_eq_zero_iff key.pos.le key.lt]
  exact key.pos.ne'

end BitcoinCash
