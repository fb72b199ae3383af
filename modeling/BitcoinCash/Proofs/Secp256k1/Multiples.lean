import BitcoinCash.Proofs.Secp256k1.ChordTangent

namespace BitcoinCash.Secp256k1.Point

def copies (a : Point) : ℕ → Point
  | 0 => .infinity
  | k + 1 => (copies a k).add a

theorem copies_ofGroup (P : curve.Point) (k : ℕ) : (ofGroup P).copies k = ofGroup (k • P) := by
  induction k with
  | zero => rw [copies, zero_nsmul, ofGroup_zero]
  | succ k ih => rw [copies, ih, add_ofGroup, succ_nsmul]

/-- No multiple is taken modulo the order of the group, and the two ladders agree. -/
theorem mul_eq_copies {a : Point} (ha : a.Valid) :
    (∀ k : ℤ, a.mul k = if 0 ≤ k then a.copies k.toNat else a.negate.copies (-k).toNat) ∧
      ∀ u v : ℤ, 0 ≤ u → 0 ≤ v → mulAdd u v a = (g.mul u).add (a.mul v) := by
  obtain ⟨P, rfl⟩ := valid_iff.1 ha
  constructor
  · intro k
    rw [mul_ofGroup, negate_ofGroup, copies_ofGroup, copies_ofGroup]
    split_ifs with hk
    · rw [← natCast_zsmul, Int.toNat_of_nonneg hk]
    · rw [← natCast_zsmul, Int.toNat_of_nonneg (by omega), neg_smul_neg]
  · intro u v hu hv
    rw [mulAdd_ofGroup, ← ofGroup_generator, mul_ofGroup, mul_ofGroup, add_ofGroup,
      ← natCast_zsmul, ← natCast_zsmul, Int.natAbs_of_nonneg hu, Int.natAbs_of_nonneg hv]

theorem mul_eq_copies_opposite :
    g.negate.Valid ∧ g.negate.mul 5 = g.negate.copies 5 ∧
      g.negate.mul (-5) = g.negate.negate.copies 5 ∧
      mulAdd 5 5 g.negate = (g.mul 5).add (g.negate.mul 5) := by
  obtain ⟨hmul, hmulAdd⟩ := mul_eq_copies valid_g.negate
  refine ⟨valid_g.negate, ?_, ?_, hmulAdd 5 5 (by decide) (by decide)⟩
  · exact (hmul 5).trans (if_pos (by decide))
  · exact (hmul (-5)).trans (if_neg (by decide))

end BitcoinCash.Secp256k1.Point
