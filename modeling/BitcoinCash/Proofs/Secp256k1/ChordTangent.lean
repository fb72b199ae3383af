import BitcoinCash.Proofs.Secp256k1.Group

namespace BitcoinCash.Secp256k1.Point

open WeierstrassCurve

def Valid (a : Point) : Prop := a = .infinity ∨ a.check = .ok ()

theorem check_affine_eq_ok {x y : ℤ} : check (.affine x y) = .ok () ↔ OnCurve x y := by
  rw [check, OnCurve]
  split_ifs with hfield hcurve
  · exact iff_of_false nofun fun h ↦ hcurve h.2.2
  · exact iff_of_true rfl ⟨hfield.1, hfield.2, not_not.1 hcurve⟩
  · exact iff_of_false nofun fun h ↦ hfield ⟨h.1, h.2.1⟩

theorem valid_iff {a : Point} : a.Valid ↔ ∃ P, ofGroup P = a := by
  constructor
  · intro h
    cases a with
    | infinity => exact ⟨0, rfl⟩
    | affine x y =>
      have hc : OnCurve x y := check_affine_eq_ok.1 (h.resolve_left nofun)
      exact ⟨toGroup hc, ofGroup_toGroup hc⟩
  · intro ⟨P, hP⟩
    cases a with
    | infinity => exact .inl rfl
    | affine x y => exact .inr (check_affine_eq_ok.2 (onCurve_of_ofGroup hP))

theorem valid_ofGroup (P : curve.Point) : (ofGroup P).Valid :=
  valid_iff.2 ⟨P, rfl⟩

theorem Valid.reduced {x y : ℤ} (h : Valid (.affine x y)) : Reduced x ∧ Reduced y := by
  have hc : OnCurve x y := check_affine_eq_ok.1 (h.resolve_left nofun)
  exact ⟨hc.1, hc.2.1⟩

def mirror : Point → Point
  | .infinity => .infinity
  | .affine x y => .affine x (-y : Fp).val

def slope (x y x' y' : ℤ) : Fp :=
  if x = x' ∧ y = y' then 3 * x ^ 2 / (2 * y) else (y' - y) / (x' - x)

/-- The sum of two points is the mirror image of the third point on their line. -/
def chordTangent : Point → Point → Point
  | .infinity, b => b
  | a, .infinity => a
  | .affine x y, .affine x' y' =>
    if .affine x' y' = mirror (.affine x y) then .infinity
    else
      let m := slope x y x' y'
      let u := m ^ 2 - x - x'
      .affine u.val (m * (x - u) - y).val

variable (P Q : curve.Point)

theorem mirror_ofGroup : mirror (ofGroup P) = ofGroup (-P) := by
  rcases P with _ | ⟨x, y, h⟩
  · rfl
  · rw [Affine.Point.neg_some]
    simp only [ofGroup, mirror, cast_val, negY_curve]

theorem slope_ofGroup {x y x' y' : Fp} (h : curve.Nonsingular x y) (h' : curve.Nonsingular x' y')
    (hne : ¬(x = x' ∧ y = -y')) : slope x.val y.val x'.val y'.val = curve.slope x x' y y' := by
  simp only [slope, natCast_val_inj, cast_val]
  by_cases hx : x = x'
  · subst hx
    have hy : y = y' := (Affine.Y_eq_of_X_eq h.1 h'.1 rfl).resolve_right fun hneg ↦
      hne ⟨rfl, hneg.trans (negY_curve x y')⟩
    subst hy
    have h0 : y ≠ 0 := by
      intro h0
      exact hne ⟨rfl, by rw [h0, neg_zero]⟩
    rw [if_pos ⟨rfl, rfl⟩, slope_tangent h0]
  · rw [if_neg fun heq ↦ hx heq.1, Affine.slope_of_X_ne hx, ← neg_div_neg_eq, neg_sub, neg_sub]

/-- Chords and tangents compute in the group of the curve. -/
theorem chordTangent_ofGroup : chordTangent (ofGroup P) (ofGroup Q) = ofGroup (P + Q) := by
  rcases P with _ | ⟨x, y, h⟩
  · exact congrArg ofGroup (zero_add Q).symm
  rcases Q with _ | ⟨x', y', h'⟩
  · exact congrArg ofGroup (add_zero (Affine.Point.some x y h)).symm
  have hmirror : Point.affine x'.val y'.val = mirror (.affine x.val y.val) ↔ x = x' ∧ y = -y' := by
    rw [mirror, affine.injEq, natCast_val_inj, natCast_val_inj, cast_val, eq_comm]
    exact and_congr_right fun _ ↦ neg_eq_iff_eq_neg.symm.trans eq_comm
  simp only [ofGroup, chordTangent, hmirror]
  split_ifs with heq
  · rw [Affine.Point.add_of_Y_eq heq.1 (heq.2.trans (negY_curve x' y').symm)]
  · obtain ⟨hsum, he⟩ := exists_some_add_some h h' heq rfl
    rw [he, slope_ofGroup h h' heq]
    simp only [cast_val]

variable {a b : Point}

/-- The operations on points are those of the group, by chords and tangents, and they lead from valid
points to valid points. -/
theorem operations_eq_chordTangent (ha : a.Valid) (hb : b.Valid) :
    a.add b = chordTangent a b ∧ a.double = chordTangent a a ∧ a.negate = mirror a ∧
      ∀ c ∈ [a.add b, a.double, a.negate],
        c.Valid ∧ ∀ x y, c = .affine x y → Reduced x ∧ Reduced y := by
  obtain ⟨P, rfl⟩ := valid_iff.1 ha
  obtain ⟨Q, rfl⟩ := valid_iff.1 hb
  rw [add_ofGroup, double_ofGroup, negate_ofGroup, chordTangent_ofGroup, chordTangent_ofGroup,
    mirror_ofGroup]
  refine ⟨rfl, rfl, rfl, ?_⟩
  have hvalid (R : curve.Point) :
      (ofGroup R).Valid ∧ ∀ x y, ofGroup R = .affine x y → Reduced x ∧ Reduced y := by
    refine ⟨valid_ofGroup R, ?_⟩
    intro x y he
    exact Valid.reduced (he ▸ valid_ofGroup R)
  exact List.forall_mem_cons.2 ⟨hvalid _, List.forall_mem_cons.2 ⟨hvalid _,
    List.forall_mem_singleton.2 (hvalid _)⟩⟩

theorem valid_g : g.Valid :=
  ofGroup_generator ▸ valid_ofGroup generator

theorem Valid.negate (h : a.Valid) : a.negate.Valid := by
  obtain ⟨P, rfl⟩ := valid_iff.1 h
  rw [negate_ofGroup]
  exact valid_ofGroup (-P)

theorem operations_eq_chordTangent_opposite :
    g.Valid ∧ g.negate.Valid ∧ g.add g.negate = chordTangent g g.negate ∧
      g.double = chordTangent g g ∧ g.negate = mirror g ∧
      ∀ c ∈ [g.add g.negate, g.double, g.negate],
        c.Valid ∧ ∀ x y, c = .affine x y → Reduced x ∧ Reduced y :=
  ⟨valid_g, valid_g.negate, operations_eq_chordTangent valid_g valid_g.negate⟩

end BitcoinCash.Secp256k1.Point
