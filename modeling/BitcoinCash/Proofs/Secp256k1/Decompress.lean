import BitcoinCash.Proofs.Secp256k1.ChordTangent
import BitcoinCash.Proofs.Secp256k1.Order

namespace BitcoinCash.Secp256k1

namespace Residue

variable {a : ℤ}

theorem cast_sqrt (h : 0 ≤ a) : (sqrt a : Fp) = (a : Fp) ^ ((p.toNat + 1) / 4) := by
  rw [sqrt, Modular.powNat_eq, Int.cast_natCast, ZMod.natCast_mod, Nat.cast_pow,
    ← Int.cast_natCast (R := Fp) a.toNat, Int.toNat_of_nonneg h]

theorem reduced_sqrt (a : ℤ) : Reduced (sqrt a) := by
  have hlt : Modular.powNat a.toNat ((p.toNat + 1) / 4) p.toNat < p.toNat := by
    rw [Modular.powNat_eq]
    exact Nat.mod_lt _ (by decide)
  exact ⟨Int.natCast_nonneg _, (Int.ofNat_lt.2 hlt).trans_eq natCast_toNat_p⟩

/-- Squares have a root: the order of the field is three modulo four, and half of `p + 1` is one
more than half the order of the units. -/
theorem sqr_sqrt {y : Fp} (ha : Reduced a) (hy : y ^ 2 = a) : sqr (sqrt a) = a := by
  rw [← cast_eq_iff (reduced_sqr _) ha, cast_sqr, cast_sqrt ha.1, ← hy, ← pow_mul, ← pow_mul]
  have he : 2 * ((p.toNat + 1) / 4 * 2) = p.toNat + 1 := by decide
  rw [he, pow_succ, ZMod.pow_card, sq]

end Residue

variable {x y z : ℤ}

namespace OnCurve

theorem equation (h : OnCurve x y) : (y : Fp) ^ 2 = (Residue.curveRhs x : Fp) := by
  rw [← h.2.2, Residue.cast_sqr]

theorem of_equation (hx : Reduced x) (hy : Reduced y)
    (h : (y : Fp) ^ 2 = (Residue.curveRhs x : Fp)) : OnCurve x y := by
  refine ⟨hx, hy, ?_⟩
  rwa [← cast_eq_iff (Residue.reduced_sqr _) (Residue.reduced_curveRhs _), Residue.cast_sqr]

theorem y_pos (h : OnCurve x y) : 0 < y := by
  refine h.2.1.1.lt_of_ne fun h0 ↦ curveRhs_ne_zero (x : Fp) ?_
  rw [← Residue.cast_curveRhs, ← h.equation, ← h0, Int.cast_zero, zero_pow two_ne_zero]

theorem negate (h : OnCurve x y) : OnCurve x (p - y) := by
  have hpos := h.y_pos
  refine of_equation h.1 ⟨?_, ?_⟩ ?_
  · exact Int.sub_nonneg_of_le h.2.1.2.le
  · omega
  · rw [Int.cast_sub, cast_p, zero_sub, neg_sq, h.equation]

theorem eq_of_parity (hy : OnCurve x y) (hz : OnCurve x z) (h : y % 2 = z % 2) : y = z := by
  have val_of_reduced {a : ℤ} (ha : Reduced a) : ((a : Fp).val : ℤ) = a := (eq_val ha rfl).symm
  have hval (a : ℕ) : (a % 2 == 1) = ((a : ℤ) % 2 == 1) := by
    rw [Bool.eq_iff_iff, beq_iff_eq, beq_iff_eq]
    omega
  have houtline : outline (Point.toGroup hy) = outline (Point.toGroup hz) := by
    simp only [outline, Point.toGroup, hval, val_of_reduced hy.2.1, val_of_reduced hz.2.1, h]
  have hpoint := congrArg Point.ofGroup (outline_injective houtline)
  rw [Point.ofGroup_toGroup, Point.ofGroup_toGroup] at hpoint
  exact (Point.affine.inj hpoint).2

end OnCurve

theorem p_sub_parity (y : ℤ) : (p - y) % 2 = 1 ↔ y % 2 ≠ 1 := by
  have hp : p % 2 = 1 := by decide
  omega

/-- Decompression finds the point with the coordinate and the parity asked for, if the curve has any
over the coordinate; else it fails, for a reason that the parity does not enter. -/
theorem Point.ofX_cases (odd : Bool) (x : ℤ) :
    (∃ y, ofX odd x = .ok (.affine x y) ∧ OnCurve x y ∧ (y % 2 = 1 ↔ odd)) ∨
      (¬ ∃ y, OnCurve x y) ∧
        ofX odd x = .error (.point (if Reduced x then .noPointAt x else .xOutsideField)) := by
  rw [ofX]
  by_cases hx : x < 0 ∨ p ≤ x
  · have hred : ¬ Reduced x := by
      rw [Reduced]
      omega
    rw [if_pos hx, if_neg hred]
    exact .inr ⟨fun ⟨_, hc⟩ ↦ hred hc.1, rfl⟩
  · have hred : Reduced x := ⟨by omega, by omega⟩
    rw [if_neg hx, if_pos hred]
    dsimp only
    by_cases hs : Residue.sqr (Residue.sqrt (Residue.curveRhs x)) = Residue.curveRhs x
    · have hroot : OnCurve x (Residue.sqrt (Residue.curveRhs x)) :=
        ⟨hred, Residue.reduced_sqrt _, hs⟩
      rw [if_neg (not_not.2 hs)]
      generalize Residue.sqrt (Residue.curveRhs x) = w at hroot
      -- of the root and its negative, the one with the parity
      refine .inl ⟨_, rfl, ?_⟩
      split
      · next hw => exact ⟨hroot, by rw [← hw, beq_iff_eq]⟩
      · next hw =>
        refine ⟨hroot.negate, ?_⟩
        rw [p_sub_parity]
        cases odd <;> simpa using hw
    · rw [if_pos hs]
      refine .inr ⟨fun ⟨y, hc⟩ ↦ hs ?_, rfl⟩
      exact Residue.sqr_sqrt (Residue.reduced_curveRhs x) hc.equation

theorem Point.ofX_eq_ok_iff {odd : Bool} {a : Point} :
    ofX odd x = .ok a ↔ ∃ y, a = .affine x y ∧ OnCurve x y ∧ (y % 2 = 1 ↔ odd) := by
  rcases ofX_cases odd x with ⟨z, hz, hzc, hzp⟩ | ⟨hnone, herr⟩
  · rw [hz, Except.ok.injEq]
    constructor
    · rintro rfl
      exact ⟨z, rfl, hzc, hzp⟩
    · rintro ⟨y, rfl, hyc, hyp⟩
      have hparity : y % 2 = z % 2 := by
        have := hyp.trans hzp.symm
        omega
      rw [hyc.eq_of_parity hzc hparity]
  · rw [herr]
    refine iff_of_false nofun ?_
    rintro ⟨y, -, hc, -⟩
    exact hnone ⟨y, hc⟩

theorem Point.ofX_eq_error_iff {odd : Bool} {e : CryptoError} :
    ofX odd x = .error e ↔ (¬ ∃ y, OnCurve x y) ∧
      e = .point (if Reduced x then .noPointAt x else .xOutsideField) := by
  rcases ofX_cases odd x with ⟨z, hz, hzc, -⟩ | ⟨hnone, herr⟩
  · rw [hz]
    exact iff_of_false nofun fun h ↦ h.1 ⟨z, hzc⟩
  · rw [herr, and_iff_right hnone, Except.error.injEq, eq_comm]

theorem exists_onCurve_iff (hx : Reduced x) :
    (∃ y, OnCurve x y) ↔ ∃ y : ℤ, y ^ 2 ≡ x ^ 3 + 7 [ZMOD p] := by
  have hcast (y : ℤ) : y ^ 2 ≡ x ^ 3 + 7 [ZMOD p] ↔ (y : Fp) ^ 2 = (Residue.curveRhs x : Fp) := by
    have hrhs : (Residue.curveRhs x : Fp) = ((x ^ 3 + 7 : ℤ) : Fp) := by
      rw [Residue.cast_curveRhs]
      push_cast
      rfl
    rw [hrhs, ← Int.cast_pow]
    exact (ZMod.intCast_eq_intCast_iff _ _ p.toNat).symm
  simp only [hcast]
  constructor
  · rintro ⟨y, hc⟩
    exact ⟨y, hc.equation⟩
  · rintro ⟨y, hy⟩
    refine ⟨y % p, OnCurve.of_equation hx (reduced_emod y) ?_⟩
    rw [cast_emod, hy]

/-- Decompression succeeds exactly if `x` is a residue and `x³ + 7` a square modulo `p`. The point
it yields is a valid one over `x` with the parity asked for; else it says that there is none. -/
theorem Point.ofX_exact (odd : Bool) (x : ℤ) :
    ((∃ a, ofX odd x = .ok a) ↔ (0 ≤ x ∧ x < p) ∧ ∃ y : ℤ, y ^ 2 ≡ x ^ 3 + 7 [ZMOD p]) ∧
      (∀ a, ofX odd x = .ok a →
        ∃ y, a = .affine x y ∧ a.check = .ok () ∧ (0 ≤ y ∧ y < p) ∧ (y % 2 = 1 ↔ odd)) ∧
      ∀ e, ofX odd x = .error e →
        e = .point (if 0 ≤ x ∧ x < p then .noPointAt x else .xOutsideField) := by
  refine ⟨?_, ?_, fun e he ↦ (ofX_eq_error_iff.1 he).2⟩
  · constructor
    · rintro ⟨a, ha⟩
      obtain ⟨y, -, hc, -⟩ := ofX_eq_ok_iff.1 ha
      exact ⟨hc.1, (exists_onCurve_iff hc.1).1 ⟨y, hc⟩⟩
    · rintro ⟨hx, hroot⟩
      cases hfound : ofX odd x with
      | ok a => exact ⟨a, rfl⟩
      | error e => exact absurd ((exists_onCurve_iff hx).2 hroot) (ofX_eq_error_iff.1 hfound).1
  · intro a ha
    obtain ⟨y, rfl, hc, hparity⟩ := ofX_eq_ok_iff.1 ha
    exact ⟨y, rfl, check_affine_eq_ok.2 hc, hc.2.1, hparity⟩

theorem Point.ofX_exact_generator :
    let x : ℤ := 0x79be667ef9dcbbac55a06295ce870b07029bfcdb2dce28d959f2815b16f81798
    (ofX false x = .ok g ∧
      ∃ y, g = .affine x y ∧ g.check = .ok () ∧ (0 ≤ y ∧ y < p) ∧ (y % 2 = 1 ↔ false)) ∧
      ofX true 5 = .error (.point (.noPointAt 5)) ∧ ¬ ∃ y : ℤ, y ^ 2 ≡ 5 ^ 3 + 7 [ZMOD p] := by
  intro x
  have hg : ofX false x = .ok g := ofX_eq_ok_iff.2 ⟨_, rfl, g_onCurve, by decide⟩
  have hnone : ¬ (ofX true 5).isOk := by decide +kernel
  refine ⟨⟨hg, (ofX_exact false x).2.1 g hg⟩, ?_, ?_⟩
  · cases h5 : ofX true 5 with
    | ok a => exact absurd (h5 ▸ rfl) hnone
    | error e => rw [(ofX_exact true 5).2.2 e h5, if_pos (by decide)]
  · intro hroot
    obtain ⟨a, ha⟩ := (ofX_exact true 5).1.2 ⟨by decide, hroot⟩
    exact hnone (ha ▸ rfl)

end BitcoinCash.Secp256k1
