import BitcoinCash.Proofs.Secp256k1.Group
import Mathlib.FieldTheory.Finite.Basic
import Mathlib.GroupTheory.Perm.Cycle.Type

namespace BitcoinCash.Secp256k1

open WeierstrassCurve

instance : Fact n.toNat.Prime := ⟨prime_n⟩

theorem generator_ne_zero : Point.generator ≠ 0 :=
  Affine.Point.some_ne_zero _

theorem order_nsmul_generator : n.toNat • Point.generator = 0 := by
  rw [← Point.ofGroup_eq_infinity_iff, ← natCast_zsmul, ← Point.mul_ofGroup,
    Point.ofGroup_generator]
  decide +kernel

theorem addOrderOf_generator : addOrderOf Point.generator = n.toNat :=
  addOrderOf_eq_prime order_nsmul_generator generator_ne_zero

/-- `-7` is not a cube: its power by a third of the order of the units is not one. -/
theorem curveRhs_ne_zero (x : Fp) : x ^ 3 + 7 ≠ 0 := by
  intro h
  have hx : x ≠ 0 := by
    rintro rfl
    exact natCast_ne_zero (k := 7) (by decide) (by decide) (by simpa using h)
  have h7 : ((p.toNat - 7 : ℕ) : Fp) = x ^ 3 := by
    rw [Nat.cast_sub (by decide), ZMod.natCast_self]
    push_cast
    linear_combination -h
  have h1 : ((p.toNat - 7 : ℕ) : Fp) ^ ((p.toNat - 1) / 3) = 1 := by
    rw [h7, ← pow_mul, Nat.mul_div_cancel' (by decide), ZMod.pow_card_sub_one_eq_one hx]
  rw [natCast_pow_eq_one_iff (by decide)] at h1
  exact absurd h1 (by decide +kernel)

theorem eq_zero_of_add_self {P : curve.Point} (h : P + P = 0) : P = 0 := by
  rcases P with _ | ⟨x, y, hP⟩
  · rfl
  · have hy : y = -y := by
      rw [← negY_curve x y]
      by_contra hne
      rw [Affine.Point.add_self_of_Y_ne hne] at h
      exact Affine.Point.some_ne_zero _ h
    have h0 : y = 0 := by
      have h2 : (2 : Fp) * y = 0 := by linear_combination hy
      exact (mul_eq_zero.1 h2).resolve_left two_ne_zero_fp
    have he := (nonsingular_iff x y).1 hP
    rw [h0, zero_pow two_ne_zero] at he
    exact absurd he.symm (curveRhs_ne_zero x)

def outline : curve.Point → Option (Fp × Bool)
  | .zero => none
  | .some x y _ => some (x, y.val % 2 == 1)

theorem outline_injective : Function.Injective outline := by
  intro P Q h
  rcases P with _ | ⟨x, y, hP⟩ <;> rcases Q with _ | ⟨x', y', hQ⟩
  · rfl
  · cases h
  · cases h
  · simp only [outline, Option.some.injEq, Prod.mk.injEq] at h
    obtain ⟨rfl, hpar⟩ := h
    suffices y = y' by subst this; rfl
    refine (Affine.Y_eq_of_X_eq hP.1 hQ.1 rfl).elim id fun hneg ↦ ?_
    rw [negY_curve] at hneg
    by_contra hne
    have h0 : y' ≠ 0 := by
      rintro rfl
      exact hne (by rw [hneg, neg_zero])
    have hodd : p.toNat % 2 = 1 := by decide
    have hlt := ZMod.val_lt y'
    rw [hneg, ZMod.neg_val, if_neg h0, Bool.eq_iff_iff, beq_iff_eq, beq_iff_eq] at hpar
    omega

instance : Finite curve.Point := Finite.of_injective outline outline_injective

theorem card_le : Nat.card curve.Point ≤ 2 * p.toNat + 1 := by
  have h := Nat.card_le_card_of_injective outline outline_injective
  have h2 : Nat.card Bool = 2 := by rw [Nat.card_eq_fintype_card, Fintype.card_bool]
  rwa [Finite.card_option, Nat.card_prod, Nat.card_zmod, h2, Nat.mul_comm] at h

/-- The number of points is a multiple of `n` too small for three times `n`, and odd. -/
theorem card_eq : Nat.card curve.Point = n.toNat := by
  obtain ⟨c, hc⟩ : n.toNat ∣ Nat.card curve.Point :=
    addOrderOf_generator ▸ addOrderOf_dvd_natCard Point.generator
  have hle := card_le
  have hpos : 0 < Nat.card curve.Point := Nat.card_pos
  have hodd : ¬ 2 ∣ Nat.card curve.Point := by
    intro h2
    obtain ⟨P, hP⟩ := exists_prime_addOrderOf_dvd_card' 2 h2
    have h0 : P = 0 := by
      apply eq_zero_of_add_self
      rw [← two_nsmul, ← hP, addOrderOf_nsmul_eq_zero]
    rw [h0, addOrderOf_zero] at hP
    omega
  have hn : 2 * p.toNat + 1 < 3 * n.toNat := by decide
  have hc3 : c < 3 := by
    by_contra h3
    have := Nat.mul_le_mul_left n.toNat (not_lt.1 h3)
    omega
  interval_cases c
  · omega
  · omega
  · omega

theorem order_nsmul (P : curve.Point) : n.toNat • P = 0 := by
  rw [← card_eq]
  exact card_nsmul_eq_zero'

end BitcoinCash.Secp256k1
