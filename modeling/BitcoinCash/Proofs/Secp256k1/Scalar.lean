import BitcoinCash.Proofs.Secp256k1.Order
import Mathlib.Algebra.Module.ZMod

namespace BitcoinCash.Secp256k1

abbrev Fn := ZMod n.toNat

instance : Module Fn curve.Point := AddCommGroup.zmodModule order_nsmul

theorem n_pos : 0 < n := by decide

namespace Scalar

theorem cast_n : ((n : ℤ) : Fn) = 0 :=
  (ZMod.intCast_zmod_eq_zero_iff_dvd n n.toNat).2 (dvd_refl n)

theorem cast_n_sub (a : ℤ) : ((n - a : ℤ) : Fn) = -a := by
  rw [Int.cast_sub, cast_n, zero_sub]

theorem cast_emod (a : ℤ) : ((a % n : ℤ) : Fn) = a :=
  ZMod.intCast_mod a n.toNat

theorem cast_eq_iff {a b : ℤ} (ha : 0 ≤ a ∧ a < n) (hb : 0 ≤ b ∧ b < n) : (a : Fn) = b ↔ a = b :=
  Modular.cast_eq_iff ha hb

theorem cast_eq_zero_iff {a : ℤ} (h0 : 0 ≤ a) (h : a < n) : (a : Fn) = 0 ↔ a = 0 := by
  rw [← Int.cast_zero, cast_eq_iff ⟨h0, h⟩ ⟨le_rfl, n_pos⟩]

end Scalar

namespace Point

theorem mul_generator (k : ℤ) : g.mul k = ofGroup ((k : Fn) • generator) := by
  rw [← ofGroup_generator, mul_ofGroup, Int.cast_smul_eq_zsmul]

/-- All points have the order of the generator. -/
theorem mul_n_ofGroup (P : curve.Point) : (ofGroup P).mul n = .infinity := by
  have hn : (n : ℤ) • P = 0 := by
    rw [← Int.cast_smul_eq_zsmul Fn, Scalar.cast_n]
    exact zero_smul Fn P
  rw [mul_ofGroup, hn]
  rfl

theorem mulAdd_residues (u v : ℤ) (Q : curve.Point) :
    mulAdd (u % n) (v % n) (ofGroup Q) =
      ofGroup ((u : Fn) • generator + (v : Fn) • Q) := by
  have hsmul (a : ℤ) (P : curve.Point) : (a % n).natAbs • P = (a : Fn) • P := by
    rw [← natCast_zsmul, Int.natAbs_of_nonneg (Int.emod_nonneg a n_pos.ne'),
      ← Int.cast_smul_eq_zsmul Fn, Scalar.cast_emod]
  rw [mulAdd_ofGroup, hsmul, hsmul]

theorem smul_generator_eq_zero_iff {k : ℤ} (h0 : 0 ≤ k) (h : k < n) :
    (k : Fn) • generator = 0 ↔ k = 0 := by
  rw [smul_eq_zero, or_iff_left generator_ne_zero, Scalar.cast_eq_zero_iff h0 h]

end Point

end BitcoinCash.Secp256k1
