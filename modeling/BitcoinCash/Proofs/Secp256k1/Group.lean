import BitcoinCash.Proofs.Secp256k1.Jacobian
import BitcoinCash.Secp256k1.Point
import Mathlib.Tactic.Module

namespace BitcoinCash.Secp256k1

open WeierstrassCurve

namespace Jacobian

theorem represents_mul {a : Jacobian} {P : curve.Point} (h : a.Represents P) (k : ℕ) :
    (a.mul k).Represents (k • P) := by
  induction k using Nat.strong_induction_on with
  | _ k ih =>
    rw [mul]
    split
    · next hk =>
      rw [hk, zero_nsmul]
      exact represents_infinity
    · next hk =>
      have hd := represents_double (ih (k / 2) (by omega))
      dsimp only
      split
      · next ho =>
        have he : k • P = (k / 2) • P + (k / 2) • P + P := by
          rw [← add_nsmul, ← succ_nsmul, show k / 2 + k / 2 + 1 = k by omega]
        rw [he]
        exact represents_add hd h
      · next ho =>
        have he : k • P = (k / 2) • P + (k / 2) • P := by
          rw [← add_nsmul, show k / 2 + k / 2 = k by omega]
        rwa [he]

/-- The two chains of doublings run in step, each adding its point where its number has a one. -/
theorem represents_mulAdd {a b both : Jacobian} {P Q : curve.Point} (ha : a.Represents P)
    (hb : b.Represents Q) (hboth : both.Represents (P + Q)) (u v : ℕ) :
    (mulAdd a b both u v).Represents (u • P + v • Q) := by
  induction hn : u + v using Nat.strong_induction_on generalizing u v with
  | _ k ih =>
    rw [mulAdd]
    split
    · next hk =>
      rw [hk.1, hk.2, zero_nsmul, zero_nsmul, add_zero]
      exact represents_infinity
    · next hk =>
      have hd := represents_double (ih (u / 2 + v / 2) (by omega) (u / 2) (v / 2) rfl)
      have hu : u • P = (2 * (u / 2) + u % 2) • P := by rw [Nat.div_add_mod]
      have hv : v • Q = (2 * (v / 2) + v % 2) • Q := by rw [Nat.div_add_mod]
      rw [hu, hv]
      dsimp only
      split
      · next ho =>
        split
        · next ho' =>
          convert represents_add hd hboth using 1
          rw [ho, ho']
          module
        · next ho' =>
          convert represents_add hd ha using 1
          rw [ho, show v % 2 = 0 by omega]
          module
      · next ho =>
        split
        · next ho' =>
          convert represents_add hd hb using 1
          rw [ho', show u % 2 = 0 by omega]
          module
        · next ho' =>
          convert hd using 1
          rw [show u % 2 = 0 by omega, show v % 2 = 0 by omega]
          module

end Jacobian

namespace Point

def ofGroup : curve.Point → Point
  | .zero => .infinity
  | .some x y _ => .affine x.val y.val

@[simp]
theorem ofGroup_zero : ofGroup 0 = .infinity := rfl

theorem ofGroup_injective : Function.Injective ofGroup := by
  intro P Q h
  rcases P with _ | ⟨x, y, hP⟩ <;> rcases Q with _ | ⟨x', y', hQ⟩
  · rfl
  · cases h
  · cases h
  · simp only [ofGroup, affine.injEq, Int.natCast_inj] at h
    obtain rfl := ZMod.val_injective _ h.1
    obtain rfl := ZMod.val_injective _ h.2
    rfl

theorem ofGroup_eq_infinity_iff {P : curve.Point} : ofGroup P = .infinity ↔ P = 0 :=
  ofGroup_injective.eq_iff' ofGroup_zero

theorem nonsingular_of_onCurve {x y : ℤ} (h : OnCurve x y) : curve.Nonsingular (x : Fp) y := by
  rw [nonsingular_iff, ← Residue.cast_sqr, ← Residue.cast_curveRhs, h.2.2]

def toGroup {x y : ℤ} (h : OnCurve x y) : curve.Point := .some x y (nonsingular_of_onCurve h)

@[simp]
theorem ofGroup_toGroup {x y : ℤ} (h : OnCurve x y) : ofGroup (toGroup h) = .affine x y := by
  simp only [toGroup, ofGroup, affine.injEq]
  exact ⟨(eq_val h.1 rfl).symm, (eq_val h.2.1 rfl).symm⟩

theorem onCurve_of_ofGroup {P : curve.Point} {x y : ℤ} (h : ofGroup P = .affine x y) :
    OnCurve x y := by
  rcases P with _ | ⟨u, v, hP⟩
  · cases h
  · simp only [ofGroup, affine.injEq] at h
    obtain ⟨rfl, rfl⟩ := h
    refine ⟨reduced_val u, reduced_val v, ?_⟩
    rw [← cast_eq_iff (Residue.reduced_sqr _) (Residue.reduced_curveRhs _),
      Residue.cast_curveRhs, Residue.cast_sqr, cast_val, cast_val]
    exact (nonsingular_iff u v).1 hP

theorem g_onCurve :
    OnCurve 0x79be667ef9dcbbac55a06295ce870b07029bfcdb2dce28d959f2815b16f81798
      0x483ada7726a3c4655da4fbfc0e1108a8fd17b448a68554199c47d08ffb10d4b8 := by
  decide +kernel

def generator : curve.Point := toGroup g_onCurve

theorem ofGroup_generator : ofGroup generator = g := ofGroup_toGroup g_onCurve

theorem represents_toJacobian (P : curve.Point) : (ofGroup P).toJacobian.Represents P := by
  rcases P with _ | ⟨x, y, h⟩
  · exact .zero rfl
  · refine .some h ⟨reduced_val x, reduced_val y, one_reduced⟩ one_ne_zero ?_ ?_
    · simp [ofGroup, toJacobian, Jacobian.ofAffine]
    · simp [ofGroup, toJacobian, Jacobian.ofAffine]

theorem toPoint_eq {a : Jacobian} {P : curve.Point} (h : a.Represents P) :
    a.toPoint = ofGroup P := by
  cases h with
  | zero hz =>
    rw [Jacobian.toPoint, if_pos hz]
    rfl
  | @some x y h ha hz hx hy =>
    have hz' : (a.z : Fp) ≠ 0 := mt (cast_eq_zero_iff ha.z).1 hz
    obtain ⟨w, hw, -, -, hwz⟩ :=
      Modular.inverse_of_prime prime_p (ha.z.1.lt_of_ne (Ne.symm hz)) ha.z.2
    have hwz' : (w : Fp) * a.z = 1 := by
      exact_mod_cast (ZMod.intCast_eq_intCast_iff (w * a.z) 1 p.toNat).2 hwz
    rw [Jacobian.toPoint, if_neg hz, hw]
    simp only [ofGroup, affine.injEq]
    constructor
    · apply eq_val (Residue.reduced_mul _ _)
      simp only [Residue.cast_mul, Residue.cast_sqr, hx]
      linear_combination x * (w * a.z + 1) * hwz'
    · apply eq_val (Residue.reduced_mul _ _)
      simp only [Residue.cast_mul, Residue.cast_sqr, hy]
      linear_combination y * (w ^ 2 * a.z ^ 2 + w * a.z + 1) * hwz'

variable (P Q : curve.Point)

theorem add_ofGroup : (ofGroup P).add (ofGroup Q) = ofGroup (P + Q) :=
  toPoint_eq (Jacobian.represents_add (represents_toJacobian P) (represents_toJacobian Q))

theorem double_ofGroup : (ofGroup P).double = ofGroup (P + P) :=
  toPoint_eq (Jacobian.represents_double (represents_toJacobian P))

theorem negate_ofGroup : (ofGroup P).negate = ofGroup (-P) := by
  rcases P with _ | ⟨x, y, h⟩
  · rfl
  · rw [Affine.Point.neg_some]
    simp only [ofGroup, negate, affine.injEq, true_and, negY_curve]
    apply eq_val (reduced_emod _)
    rw [cast_emod, Int.cast_sub, cast_val, cast_p, zero_sub]

theorem mul_ofGroup (k : ℤ) : (ofGroup P).mul k = ofGroup (k • P) := by
  rw [mul]
  split
  · next hk =>
    rw [negate_ofGroup, toPoint_eq (Jacobian.represents_mul (represents_toJacobian (-P)) k.natAbs)]
    rw [← natCast_zsmul, Int.ofNat_natAbs_of_nonpos hk.le, neg_smul_neg]
  · next hk =>
    rw [toPoint_eq (Jacobian.represents_mul (represents_toJacobian P) k.natAbs)]
    rw [← natCast_zsmul, Int.natAbs_of_nonneg (not_lt.1 hk)]

theorem mulAdd_ofGroup (u v : ℤ) :
    mulAdd u v (ofGroup Q) = ofGroup (u.natAbs • generator + v.natAbs • Q) := by
  have hg := represents_toJacobian generator
  have hQ := represents_toJacobian Q
  rw [mulAdd, ← ofGroup_generator]
  exact toPoint_eq (Jacobian.represents_mulAdd hg hQ (Jacobian.represents_add hg hQ) _ _)

end Point

end BitcoinCash.Secp256k1
