import BitcoinCash.Proofs.Secp256k1.Primality
import Mathlib.Algebra.Field.ZMod

namespace BitcoinCash.Secp256k1

abbrev Fp := ZMod p.toNat

instance : Fact p.toNat.Prime := ⟨prime_p⟩

theorem natCast_toNat_p : (p.toNat : ℤ) = p := rfl

theorem p_pos : 0 < p := by decide

/-- A number that represents its residue class. -/
def Reduced (a : ℤ) : Prop := 0 ≤ a ∧ a < p

instance (a : ℤ) : Decidable (Reduced a) :=
  inferInstanceAs (Decidable (_ ∧ _))

theorem one_reduced : Reduced 1 := by decide

theorem reduced_emod (a : ℤ) : Reduced (a % p) :=
  ⟨Int.emod_nonneg a p_pos.ne', Int.emod_lt_of_pos a p_pos⟩

theorem reduced_val (x : Fp) : Reduced x.val :=
  ⟨Int.natCast_nonneg _, (Int.ofNat_lt.2 (ZMod.val_lt x)).trans_eq natCast_toNat_p⟩

theorem cast_eq_iff {a b : ℤ} (ha : Reduced a) (hb : Reduced b) : (a : Fp) = b ↔ a = b :=
  Modular.cast_eq_iff ha hb

theorem cast_eq_zero_iff {a : ℤ} (ha : Reduced a) : (a : Fp) = 0 ↔ a = 0 := by
  rw [← Int.cast_zero, cast_eq_iff ha ⟨le_rfl, p_pos⟩]

@[simp]
theorem cast_val (x : Fp) : ((x.val : ℤ) : Fp) = x := by
  rw [Int.cast_natCast, ZMod.natCast_zmod_val]

theorem natCast_val_inj {x y : Fp} : (x.val : ℤ) = y.val ↔ x = y :=
  Int.natCast_inj.trans (ZMod.val_injective _).eq_iff

theorem eq_val {a : ℤ} {x : Fp} (ha : Reduced a) (h : (a : Fp) = x) : a = x.val := by
  rw [← cast_eq_iff ha (reduced_val x), cast_val, h]

theorem cast_emod (a : ℤ) : ((a % p : ℤ) : Fp) = a :=
  ZMod.intCast_mod a p.toNat

theorem cast_p : ((p : ℤ) : Fp) = 0 :=
  (ZMod.intCast_zmod_eq_zero_iff_dvd p p.toNat).2 (dvd_refl p)

namespace Residue

variable (a b : ℤ)

theorem reduced_mul : Reduced (mul a b) := reduced_emod _

theorem reduced_sqr : Reduced (sqr a) := reduced_emod _

theorem reduced_curveRhs : Reduced (curveRhs a) := reduced_emod _

@[simp]
theorem cast_add : (add a b : Fp) = a + b := by
  rw [add, cast_emod, Int.cast_add]

@[simp]
theorem cast_sub : (sub a b : Fp) = a - b := by
  rw [sub, cast_emod, Int.cast_sub]

@[simp]
theorem cast_mul : (mul a b : Fp) = a * b := by
  rw [mul, cast_emod, Int.cast_mul]

@[simp]
theorem cast_sqr : (sqr a : Fp) = a ^ 2 := by
  rw [sqr, cast_mul, sq]

@[simp]
theorem cast_curveRhs : (curveRhs a : Fp) = a ^ 3 + 7 := by
  simp only [curveRhs, cast_add, cast_mul, cast_sqr, Int.cast_ofNat]
  ring

end Residue

theorem natCast_ne_zero {k : ℕ} (h : 0 < k) (hk : k < p.toNat) : (k : Fp) ≠ 0 := by
  rw [Ne, ZMod.natCast_eq_zero_iff]
  exact Nat.not_dvd_of_pos_of_lt h hk

theorem two_ne_zero_fp : (2 : Fp) ≠ 0 :=
  natCast_ne_zero (k := 2) (by decide) (by decide)

end BitcoinCash.Secp256k1
