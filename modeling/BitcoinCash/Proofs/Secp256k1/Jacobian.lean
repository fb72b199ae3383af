import BitcoinCash.Proofs.Secp256k1.Field
import Mathlib.AlgebraicGeometry.EllipticCurve.Affine.Point
import Mathlib.Tactic.FieldSimp
import Mathlib.Tactic.LinearCombination

namespace BitcoinCash.Secp256k1

open WeierstrassCurve

def curve : Affine Fp where
  a₁ := 0
  a₂ := 0
  a₃ := 0
  a₄ := 0
  a₆ := 7

@[simp]
theorem negY_curve (x y : Fp) : curve.negY x y = -y := by
  simp [Affine.negY, curve]

theorem equation_iff (x y : Fp) : curve.Equation x y ↔ y ^ 2 = x ^ 3 + 7 := by
  simp [Affine.equation_iff, curve]

theorem discriminant_ne_zero : curve.Δ ≠ 0 := by
  have h : curve.Δ = -((21168 : ℕ) : Fp) := by
    simp only [Δ, b₂, b₄, b₆, b₈, curve]
    norm_num
  rw [h, neg_ne_zero]
  exact natCast_ne_zero (by decide) (by decide)

theorem nonsingular_iff (x y : Fp) : curve.Nonsingular x y ↔ y ^ 2 = x ^ 3 + 7 := by
  rw [← Affine.equation_iff_nonsingular_of_Δ_ne_zero discriminant_ne_zero, equation_iff]

section Sum

variable {x y x' y' : Fp}

theorem slope_tangent (hy : y ≠ 0) : curve.slope x x y y = 3 * x ^ 2 / (2 * y) := by
  have hne : y ≠ curve.negY x y := by
    rw [negY_curve, Ne, eq_neg_iff_add_eq_zero, ← two_mul]
    exact mul_ne_zero two_ne_zero_fp hy
  rw [Affine.slope_of_Y_ne rfl hne, negY_curve]
  simp only [curve]
  ring_nf

/-- Points that are not each other's negatives, on a line of slope `m`, which is the tangent if they
are one. -/
theorem exists_some_add_some (h : curve.Nonsingular x y) (h' : curve.Nonsingular x' y') {m : Fp}
    (hne : ¬(x = x' ∧ y = -y')) (hm : curve.slope x x' y y' = m) :
    ∃ hsum, (.some x y h + .some x' y' h' : curve.Point) =
      .some (m ^ 2 - x - x') (m * (x - (m ^ 2 - x - x')) - y) hsum := by
  have hx : curve.addX x x' m = m ^ 2 - x - x' := by
    simp only [Affine.addX, curve]
    ring
  have hy : curve.addY x x' y m = m * (x - (m ^ 2 - x - x')) - y := by
    rw [Affine.addY, negY_curve, Affine.negAddY, hx]
    ring
  rw [← negY_curve x' y'] at hne
  have hsum := Affine.nonsingular_add h h' hne
  rw [hm, hx, hy] at hsum
  refine ⟨hsum, ?_⟩
  rw [Affine.Point.add_some hne, Affine.Point.some.injEq, hm, hx, hy]
  exact ⟨rfl, rfl⟩

end Sum

namespace Jacobian

structure IsReduced (a : Jacobian) : Prop where
  x : Reduced a.x
  y : Reduced a.y
  z : Reduced a.z

/-- `a` stands for a point of the group. -/
inductive Represents : Jacobian → curve.Point → Prop
  | zero {a : Jacobian} : a.z = 0 → Represents a 0
  | some {a : Jacobian} {x y : Fp} (h : curve.Nonsingular x y) :
      a.IsReduced → a.z ≠ 0 → (a.x : Fp) = x * a.z ^ 2 → (a.y : Fp) = y * a.z ^ 3 →
      Represents a (.some x y h)

theorem represents_infinity : infinity.Represents 0 := .zero rfl

/-- A sum by coordinates that satisfy the equations of the line through the points. -/
theorem represents_sum {a : Jacobian} {x y x' y' m : Fp} (h : curve.Nonsingular x y)
    (h' : curve.Nonsingular x' y') (hne : ¬(x = x' ∧ y = -y'))
    (hm : curve.slope x x' y y' = m) (ha : a.IsReduced) (hz : a.z ≠ 0)
    (hx : (a.x : Fp) = (m ^ 2 - x - x') * a.z ^ 2)
    (hy : (a.y : Fp) = (m * (x - (m ^ 2 - x - x')) - y) * a.z ^ 3) :
    a.Represents (.some x y h + .some x' y' h') := by
  obtain ⟨hsum, he⟩ := exists_some_add_some h h' hne hm
  rw [he]
  exact .some hsum ha hz hx hy

theorem represents_double {a : Jacobian} {P : curve.Point} (h : a.Represents P) :
    a.double.Represents (P + P) := by
  cases h with
  | zero hz =>
    rw [double, if_pos (.inl hz), add_zero]
    exact represents_infinity
  | @some x y hP ha hz hx hy =>
    have hz' : (a.z : Fp) ≠ 0 := mt (cast_eq_zero_iff ha.z).1 hz
    have hy0 : a.y = 0 ↔ y = 0 := by
      rw [← cast_eq_zero_iff ha.y, hy]
      simp [hz']
    by_cases h0 : y = 0
    · rw [double, if_pos (.inr (hy0.2 h0)),
        Affine.Point.add_self_of_Y_eq (by rw [negY_curve, h0, neg_zero])]
      exact represents_infinity
    · have h2 := two_ne_zero_fp
      rw [double, if_neg (by simp [hz, hy0, h0])]
      have hne : ¬(x = x ∧ y = -y) := by
        intro hneg
        exact mul_ne_zero h2 h0 (by linear_combination hneg.2)
      refine represents_sum hP hP hne (slope_tangent h0)
        ⟨reduced_emod _, reduced_emod _, reduced_emod _⟩ ?_ ?_ ?_
      · dsimp only
        rw [Ne, ← cast_eq_zero_iff (Residue.reduced_mul _ _)]
        simp [hy, h0, hz', h2]
      · simp only [Residue.cast_sub, Residue.cast_mul, Residue.cast_sqr, Residue.cast_add, hx, hy,
          Int.cast_ofNat]
        field_simp
        ring
      · simp only [Residue.cast_sub, Residue.cast_mul, Residue.cast_sqr, Residue.cast_add, hx, hy,
          Int.cast_ofNat]
        field_simp
        ring

section Comparison

variable {a b : Jacobian} {x y x' y' : Fp} (hz : (a.z : Fp) ≠ 0) (hz' : (b.z : Fp) ≠ 0)
include hz hz'

theorem scaled_x_eq_iff (hx : (a.x : Fp) = x * a.z ^ 2) (hx' : (b.x : Fp) = x' * b.z ^ 2) :
    Residue.mul a.x (Residue.sqr b.z) = Residue.mul b.x (Residue.sqr a.z) ↔ x = x' := by
  rw [← cast_eq_iff (Residue.reduced_mul _ _) (Residue.reduced_mul _ _)]
  simp only [Residue.cast_mul, Residue.cast_sqr, hx, hx']
  constructor
  · intro he
    apply mul_right_cancel₀ (mul_ne_zero (pow_ne_zero 2 hz) (pow_ne_zero 2 hz'))
    linear_combination he
  · rintro rfl
    ring

theorem scaled_y_eq_iff (hy : (a.y : Fp) = y * a.z ^ 3) (hy' : (b.y : Fp) = y' * b.z ^ 3) :
    Residue.mul (Residue.mul a.y b.z) (Residue.sqr b.z) =
      Residue.mul (Residue.mul b.y a.z) (Residue.sqr a.z) ↔ y = y' := by
  rw [← cast_eq_iff (Residue.reduced_mul _ _) (Residue.reduced_mul _ _)]
  simp only [Residue.cast_mul, Residue.cast_sqr, hy, hy']
  constructor
  · intro he
    apply mul_right_cancel₀ (mul_ne_zero (pow_ne_zero 3 hz) (pow_ne_zero 3 hz'))
    linear_combination he
  · rintro rfl
    ring

end Comparison

theorem represents_add {a b : Jacobian} {P Q : curve.Point} (hP : a.Represents P)
    (hQ : b.Represents Q) : (a.add b).Represents (P + Q) := by
  cases hP with
  | zero hz =>
    rw [add, if_pos hz, zero_add]
    exact hQ
  | @some x y h ha hz hx hy =>
    cases hQ with
    | zero hz' =>
      rw [add, if_neg hz, if_pos hz', add_zero]
      exact .some h ha hz hx hy
    | @some x' y' h' hb hz' hx' hy' =>
      have hc : (a.z : Fp) ≠ 0 := mt (cast_eq_zero_iff ha.z).1 hz
      have hc' : (b.z : Fp) ≠ 0 := mt (cast_eq_zero_iff hb.z).1 hz'
      have hu := scaled_x_eq_iff hc hc' hx hx'
      have hs := scaled_y_eq_iff hc hc' hy hy'
      rw [add, if_neg hz, if_neg hz']
      simp only [hu, hs]
      by_cases hxx : x = x'
      · subst hxx
        rw [if_pos rfl]
        by_cases hyy : y = y'
        · subst hyy
          rw [if_pos rfl]
          exact represents_double (.some h ha hz hx hy)
        · have hneg : y = curve.negY x y' :=
            (Affine.Y_eq_of_X_eq h.1 h'.1 rfl).resolve_left hyy
          rw [if_neg hyy, Affine.Point.add_of_Y_eq rfl hneg]
          exact represents_infinity
      · rw [if_neg hxx]
        have hd : x' - x ≠ 0 := sub_ne_zero.2 (Ne.symm hxx)
        have hd' : x - x' ≠ 0 := sub_ne_zero.2 hxx
        have h2 := two_ne_zero_fp
        refine represents_sum h h' (fun heq ↦ hxx heq.1) (Affine.slope_of_X_ne hxx)
          ⟨reduced_emod _, reduced_emod _, reduced_emod _⟩ ?_ ?_ ?_
        · dsimp only
          rw [Ne, ← cast_eq_zero_iff (Residue.reduced_mul _ _)]
          have he : (Residue.mul (Residue.sub (Residue.sub (Residue.sqr (Residue.add a.z b.z))
              (Residue.sqr a.z)) (Residue.sqr b.z)) (Residue.sub (Residue.mul b.x (Residue.sqr a.z))
              (Residue.mul a.x (Residue.sqr b.z))) : Fp) =
              2 * (a.z ^ 3 * b.z ^ 3) * (x' - x) := by
            simp only [Residue.cast_sub, Residue.cast_mul, Residue.cast_sqr, Residue.cast_add, hx,
              hx']
            ring
          rw [he]
          exact mul_ne_zero (mul_ne_zero h2 (mul_ne_zero (pow_ne_zero 3 hc) (pow_ne_zero 3 hc'))) hd
        · simp only [Residue.cast_sub, Residue.cast_mul, Residue.cast_sqr, Residue.cast_add, hx,
            hx', hy, hy', Int.cast_ofNat]
          field_simp
          ring
        · simp only [Residue.cast_sub, Residue.cast_mul, Residue.cast_sqr, Residue.cast_add, hx,
            hx', hy, hy', Int.cast_ofNat]
          field_simp
          ring

end Jacobian

end BitcoinCash.Secp256k1
