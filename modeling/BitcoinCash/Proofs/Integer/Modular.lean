import BitcoinCash.Integer.Modular
import Mathlib.Data.Int.ModEq
import Mathlib.Data.Nat.Prime.Basic
import Mathlib.Data.ZMod.Basic
import Mathlib.Tactic.Ring

namespace BitcoinCash.Modular

theorem powNat_eq (a e m : ℕ) : powNat a e m = a ^ e % m := by
  induction e using Nat.strong_induction_on generalizing a with
  | _ e ih =>
    rw [powNat]
    split
    · next he => rw [he, Nat.pow_zero]
    · next he =>
      have hh : powNat (a * a % m) (e / 2) m = a ^ (2 * (e / 2)) % m := by
        rw [ih (e / 2) (by omega), ← Nat.pow_mod, Nat.pow_mul, Nat.pow_two]
      simp only [hh]
      split
      · next ho =>
        rw [Nat.mul_mod_mod, ← Nat.pow_succ', show (2 * (e / 2)).succ = e by omega]
      · next ho =>
        rw [show 2 * (e / 2) = e by omega]

variable {a m : ℤ}

theorem cast_eq_iff {b : ℤ} (ha : 0 ≤ a ∧ a < m) (hb : 0 ≤ b ∧ b < m) :
    (a : ZMod m.toNat) = b ↔ a = b := by
  have hm : (m.toNat : ℤ) = m := Int.toNat_of_nonneg (ha.1.trans ha.2.le)
  rw [ZMod.intCast_eq_intCast_iff, hm, Int.ModEq, Int.emod_eq_of_lt ha.1 ha.2,
    Int.emod_eq_of_lt hb.1 hb.2]

/-- The coefficients stay those of `a`: each remainder is its coefficient times `a`, modulo `m`. -/
theorem euclid_spec (r s : ℕ) (x y : ℤ) (hx : r ≡ x * a [ZMOD m]) (hy : s ≡ y * a [ZMOD m]) :
    (euclid r s x y).1 = r.gcd s ∧ (euclid r s x y).1 ≡ (euclid r s x y).2 * a [ZMOD m] := by
  induction s using Nat.strong_induction_on generalizing r x y with
  | _ s ih =>
    rw [euclid]
    split
    · next hs =>
      subst hs
      exact ⟨r.gcd_zero_right.symm, hx⟩
    · next hs =>
      have hr : ((r % s : ℕ) : ℤ) ≡ (x - (r / s : ℕ) * y) * a [ZMOD m] := by
        have he : ((r % s : ℕ) : ℤ) = r - (r / s : ℕ) * s := by
          rw [Int.natCast_mod, Int.natCast_div, Int.emod_def, Int.mul_comm]
        rw [he, Int.sub_mul, Int.mul_assoc]
        exact hx.sub (hy.mul_left _)
      obtain ⟨hg, hc⟩ := ih (r % s) (Nat.mod_lt _ (by omega)) s y _ hy hr
      refine ⟨?_, hc⟩
      rw [hg, Nat.gcd_comm, ← Nat.gcd_rec, Nat.gcd_comm]

theorem euclid_residue (hm : 0 < m) :
    (euclid (a % m).toNat m.natAbs 1 0).1 = Int.gcd a m ∧
      (euclid (a % m).toNat m.natAbs 1 0).1 ≡
        (euclid (a % m).toNat m.natAbs 1 0).2 * a [ZMOD m] := by
  have hr : 0 ≤ a % m := Int.emod_nonneg a hm.ne'
  have hx : ((a % m).toNat : ℤ) ≡ 1 * a [ZMOD m] := by
    rw [Int.toNat_of_nonneg hr, Int.one_mul]
    exact Int.mod_modEq a m
  have hy : ((m.natAbs : ℕ) : ℤ) ≡ 0 * a [ZMOD m] := by
    rw [Int.natAbs_of_nonneg hm.le, Int.zero_mul]
    exact Int.modEq_zero_iff_dvd.2 (Int.dvd_refl m)
  obtain ⟨hg, hc⟩ := euclid_spec _ _ 1 0 hx hy
  refine ⟨?_, hc⟩
  rw [hg, ← Int.gcd_emod, Int.gcd]
  congr 1
  omega

theorem toNat_emod_eq_zero_iff (hm : 0 < m) : (a % m).toNat = 0 ↔ a ≡ 0 [ZMOD m] := by
  have hr : 0 ≤ a % m := Int.emod_nonneg a hm.ne'
  rw [Int.ModEq, Int.zero_emod]
  omega

theorem inverse_of_gcd_eq_one (hm : 1 < m) (h : Int.gcd a m = 1) :
    ∃ w, inverse a m = .ok w ∧ 0 ≤ w ∧ w < m ∧ w * a ≡ 1 [ZMOD m] := by
  obtain ⟨h1, hc⟩ := euclid_residue (a := a) (m := m) (by omega)
  rw [h] at h1
  have h0 : (a % m).toNat ≠ 0 := by
    intro h0
    rw [toNat_emod_eq_zero_iff (by omega), Int.modEq_zero_iff_dvd] at h0
    have hm1 := Int.dvd_coe_gcd h0 (Int.dvd_refl m)
    rw [h, Int.natCast_one] at hm1
    have hle := Int.le_of_dvd (by decide) hm1
    omega
  refine ⟨(euclid (a % m).toNat m.natAbs 1 0).2.fmod m, ?_, ?_, ?_, ?_⟩
  · rw [inverse, if_neg (show m ≠ 0 by omega)]
    exact (if_neg h0).trans (if_pos h1)
  · exact Int.fmod_nonneg_of_pos _ (by omega)
  · exact Int.fmod_lt_of_pos _ (by omega)
  · rw [h1] at hc
    rw [Int.fmod_eq_emod_of_nonneg _ (by omega)]
    exact ((Int.mod_modEq _ m).mul_right a).trans hc.symm

/-- Euclid's algorithm is not begun on zero, and what it ends with otherwise is a divisor. -/
theorem inverse_eq_error (hm : 0 < m) (h : ¬(Int.gcd a m = 1 ∧ ¬a ≡ 0 [ZMOD m])) :
    inverse a m = .error .noInverse := by
  rw [inverse, if_neg hm.ne']
  by_cases h0 : a ≡ 0 [ZMOD m]
  · exact if_pos ((toNat_emod_eq_zero_iff hm).2 h0)
  · have hg : (euclid (a % m).toNat m.natAbs 1 0).1 ≠ 1 := by
      rw [(euclid_residue hm).1]
      exact fun hg ↦ h ⟨hg, h0⟩
    exact (if_neg (mt (toNat_emod_eq_zero_iff hm).1 h0)).trans (if_neg hg)

/-- What is inverted modulo `m > 0` is just what is prime to `m`, zero apart, and the inverse is a
residue. -/
theorem inverse_exact (a : ℤ) (hm : 0 < m) :
    ((∃ x, inverse a m = .ok x) ↔ Int.gcd a m = 1 ∧ ¬a ≡ 0 [ZMOD m]) ∧
      (∀ x, inverse a m = .ok x → 0 ≤ x ∧ x < m ∧ a * x ≡ 1 [ZMOD m]) ∧
      (¬(Int.gcd a m = 1 ∧ ¬a ≡ 0 [ZMOD m]) → inverse a m = .error .noInverse) := by
  have hunit (x : ℤ) (hx : inverse a m = .ok x) : Int.gcd a m = 1 ∧ ¬a ≡ 0 [ZMOD m] := by
    by_contra h
    rw [inverse_eq_error hm h] at hx
    cases hx
  have hinverse (h : Int.gcd a m = 1 ∧ ¬a ≡ 0 [ZMOD m]) :
      ∃ w, inverse a m = .ok w ∧ 0 ≤ w ∧ w < m ∧ w * a ≡ 1 [ZMOD m] := by
    refine inverse_of_gcd_eq_one ?_ h.1
    -- every number is zero modulo one
    by_contra hle
    obtain rfl : m = 1 := by omega
    exact h.2 Int.modEq_one
  refine ⟨⟨fun ⟨x, hx⟩ ↦ hunit x hx, fun h ↦ ?_⟩, ?_, inverse_eq_error hm⟩
  · obtain ⟨w, hw, -⟩ := hinverse h
    exact ⟨w, hw⟩
  · intro x hx
    obtain ⟨w, hw, h0, hlt, hmul⟩ := hinverse (hunit x hx)
    rw [hx] at hw
    cases hw
    exact ⟨h0, hlt, Int.mul_comm x a ▸ hmul⟩

theorem inverse_exact_composite :
    (0 : ℤ) < 12 ∧ inverse (-7) 12 = .ok 5 ∧ -7 * 5 ≡ 1 [ZMOD 12] ∧
      inverse 20 12 = .error .noInverse := by
  have hm : (0 : ℤ) < 12 := by decide
  have hx : inverse (-7) 12 = .ok 5 := by decide +kernel
  refine ⟨hm, hx, ((inverse_exact (-7) hm).2.1 5 hx).2.2, (inverse_exact 20 hm).2.2 fun h ↦ ?_⟩
  exact absurd h.1 (by decide)

theorem inverse_of_prime (hm : m.toNat.Prime) (h0 : 0 < a) (ha : a < m) :
    ∃ w, inverse a m = .ok w ∧ 0 ≤ w ∧ w < m ∧ w * a ≡ 1 [ZMOD m] := by
  have h1 := hm.one_lt
  apply inverse_of_gcd_eq_one (by omega)
  have h : m.toNat.Coprime a.natAbs := Nat.coprime_of_lt_prime (by omega) (by omega) hm
  rw [Int.gcd, show m.natAbs = m.toNat by omega, h.symm.gcd_eq_one]

end BitcoinCash.Modular
