import BitcoinCash.Ecdsa.Verify
import BitcoinCash.Proofs.Key.Group

namespace BitcoinCash

open Secp256k1

namespace Ecdsa

theorem cast_ne_zero {a : ℤ} (h : InRange a) : (a : Fn) ≠ 0 := by
  rw [Ne, Scalar.cast_eq_zero_iff h.1.le h.2]
  exact h.1.ne'

theorem inverse_eq_ok {a : ℤ} (h : InRange a) :
    ∃ w, inverse a = .ok w ∧ 0 ≤ w ∧ (w : Fn) = (a : Fn)⁻¹ := by
  obtain ⟨w, hw, h0, -, hwa⟩ := Modular.inverse_of_prime prime_n h.1 h.2
  refine ⟨w, by rw [inverse, hw], h0, eq_inv_of_mul_eq_one_left ?_⟩
  exact_mod_cast (ZMod.intCast_eq_intCast_iff (w * a) 1 n.toNat).2 hwa

/-- The point that a signature of the number `e` leads back to. -/
noncomputable def noncePoint (e : ℤ) (sig : Signature) (Q : curve.Point) : curve.Point :=
  ((e : Fn) / sig.s) • Point.generator + ((sig.r : Fn) / sig.s) • Q

/-- `P` is finite and its `x` coordinate is `r` modulo `n`. -/
def HasX (P : curve.Point) (r : ℤ) : Prop :=
  ∃ x y, Point.ofGroup P = .affine x y ∧ x % n = r

def verdict (r : ℤ) : Point → Except VerifyFailure Unit
  | .infinity => .error .pointAtInfinity
  | .affine x _ => if x % n = r then .ok () else .error .rMismatch

variable {digest h : Bytes} {o : ByteOrder}

/-- With its components in range, a signature is judged by the point that it leads back to. -/
theorem verify_of_inRange (hd : digest? digest o = some h) (sig : Signature) (key : PublicKey)
    (hr : InRange sig.r) (hs : InRange sig.s) :
    verify digest sig key o =
      verdict sig.r (Point.ofGroup (noncePoint (Integer.ofBytes h .big) sig key.toGroup)) := by
  obtain ⟨w, hw, -, hwc⟩ := inverse_eq_ok hs
  have he : Point.mulAdd (Integer.ofBytes h .big * w % n) (sig.r * w % n) key.point =
      Point.ofGroup (noncePoint (Integer.ofBytes h .big) sig key.toGroup) := by
    rw [← key.ofGroup_toGroup, Point.mulAdd_residues, noncePoint, Int.cast_mul, Int.cast_mul,
      hwc, div_eq_mul_inv, div_eq_mul_inv]
  rw [verify, hd]
  dsimp only
  rw [if_neg (not_not.2 hr), if_neg (not_not.2 hs), hw]
  dsimp only
  rw [he]
  rfl

theorem verify_eq_ok_iff (hd : digest? digest o = some h) (sig : Signature) (key : PublicKey) :
    verify digest sig key o = .ok () ↔ InRange sig.r ∧ InRange sig.s ∧
      HasX (noncePoint (Integer.ofBytes h .big) sig key.toGroup) sig.r := by
  by_cases hr : InRange sig.r
  · by_cases hs : InRange sig.s
    · rw [verify_of_inRange hd sig key hr hs, HasX]
      cases Point.ofGroup (noncePoint (Integer.ofBytes h .big) sig key.toGroup) with
      | infinity => simp [verdict]
      | affine x y => simp [verdict, hr, hs]
    · simp [verify, hd, hr, hs]
  · simp [verify, hd, hr]

theorem hasX_neg {P : curve.Point} {r : ℤ} (h : HasX P r) : HasX (-P) r := by
  obtain ⟨x, y, hP, hx⟩ := h
  rcases P with _ | ⟨u, v, hP'⟩
  · cases hP
  · simp only [Point.ofGroup, Point.affine.injEq] at hP
    exact ⟨x, _, by rw [← hP.1]; rfl, hx⟩

end Ecdsa

end BitcoinCash
