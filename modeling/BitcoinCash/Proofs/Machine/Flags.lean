import BitcoinCash.Machine.Flags

namespace BitcoinCash.Flags

variable {d f g r s : Flags}

theorem has_iff : f.has g ↔ ∀ i < 32, g.bits.toBitVec.getLsbD i → f.bits.toBitVec.getLsbD i := by
  rw [has, beq_iff_eq, ← UInt32.toBitVec_inj, BitVec.eq_of_getLsbD_eq_iff]
  simp only [UInt32.toBitVec_and, BitVec.getLsbD_and, Bool.and_eq_right_iff_imp]

theorem has_of_has_remove (h : (g.remove d).has r) : g.has r := by
  rw [has_iff] at h ⊢
  intro i hi hr
  have := h i hi hr
  simp only [remove, UInt32.toBitVec_and, BitVec.getLsbD_and, Bool.and_eq_true] at this
  exact this.1

theorem has_remove (hs : s.has d) (hr : s.bits &&& r.bits = 0) :
    (g.remove d).has r = g.has r := by
  refine Bool.eq_iff_iff.2 ⟨has_of_has_remove, fun h ↦ ?_⟩
  rw [has_iff] at h hs ⊢
  intro i hi hri
  have apart : (s.bits &&& r.bits).toBitVec.getLsbD i = false := by simp [hr]
  rw [UInt32.toBitVec_and, BitVec.getLsbD_and, hri, Bool.and_true] at apart
  have kept : d.bits.toBitVec.getLsbD i = false :=
    Bool.eq_false_iff.2 fun hd ↦ by simp [hs i hi hd] at apart
  simp only [remove, UInt32.toBitVec_and, UInt32.toBitVec_not, BitVec.getLsbD_and,
    BitVec.getLsbD_not, h i hi hri, kept, hi, decide_true, Bool.not_false, Bool.and_self]

/-- The rules that only reject: where they let a run go on, it goes on as it would without them. -/
def restrictions : Flags :=
  p2sh ||| strictEncoding ||| derSignatures ||| lowS ||| nullFail ||| nullDummy ||| pushOnly |||
    minimalData ||| cleanStack ||| checkLockTimeVerify ||| checkSequenceVerify |||
    discourageUpgradableNops

/-- `f` comes from `g` by dropping restrictions. A restriction that is kept keeps those it rests
on. -/
structure Relaxes (f g : Flags) : Prop where
  dropped : ∃ d, restrictions.has d ∧ f = g.remove d
  p2sh_of_cleanStack : f.has cleanStack → g.has p2sh → f.has p2sh
  lockTime_of_discourage :
    f.has discourageUpgradableNops → g.has checkLockTimeVerify → f.has checkLockTimeVerify
  sequence_of_discourage :
    f.has discourageUpgradableNops → g.has checkSequenceVerify → f.has checkSequenceVerify

namespace Relaxes

theorem refl (f : Flags) : f.Relaxes f :=
  ⟨⟨none, by decide, by simp [remove, none]⟩, fun _ h ↦ h, fun _ h ↦ h, fun _ h ↦ h⟩

variable (h : f.Relaxes g)
include h

theorem has_mono (hr : f.has r) : g.has r := by
  obtain ⟨d, -, rfl⟩ := h.dropped
  exact has_of_has_remove hr

theorem not_has_mono (hr : ¬ g.has r) : ¬ f.has r := fun hf ↦ hr (h.has_mono hf)

theorem has_eq (hr : restrictions.bits &&& r.bits = 0) : f.has r = g.has r := by
  obtain ⟨d, hd, rfl⟩ := h.dropped
  exact has_remove hd hr

theorem has_forkId : f.has forkId = g.has forkId := h.has_eq (by decide)

theorem has_monolith : f.has monolith = g.has monolith := h.has_eq (by decide)

theorem has_checkDataSig : f.has checkDataSig = g.has checkDataSig := h.has_eq (by decide)

end Relaxes

end BitcoinCash.Flags
