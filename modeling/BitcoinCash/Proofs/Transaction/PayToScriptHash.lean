import BitcoinCash.Proofs.Machine.PayToScriptHash
import BitcoinCash.Proofs.Machine.PushPolicy
import BitcoinCash.Proofs.Machine.ShortestPush
import BitcoinCash.Proofs.Transaction.PayToPublicKeyHash

namespace BitcoinCash

open Fallible (bind_eq_ok pure_eq_ok)

variable {d : Bytes} {u r s : Script} {p : Program}

namespace Instruction

def prefixed (d : Bytes) : Instruction := ⟨pushOfLength d.length, d⟩

theorem isPush_prefixed (d : Bytes) : (prefixed d).isPush := decide_eq_true pushOfLength_le

/-- A push under the shortest length field is the shortest push unless its data have an opcode of
their own. -/
theorem checkShortest_prefixed :
    (prefixed d).checkShortest = .ok () ↔ ∀ x, d = [x] → ¬ (1 ≤ x ∧ x ≤ 16) ∧ x ≠ 0x81 := by
  rw [checkShortest, require_eq_ok]
  match d with
  | [] => simp [prefixed, shortestPush, pushOfLength]
  | [x] =>
    have hsmall (hx : 1 ≤ x ∧ x ≤ 16) : pushOfLength 1 ≠ Opcode.one + x - 1 := by
      grind [Opcode.one, pushOfLength]
    simp only [prefixed, shortestPush, List.length_singleton, List.cons.injEq, and_true,
      forall_eq']
    split
    next hx => exact iff_of_false (hsmall hx) fun h ↦ h.1 hx
    next hx =>
      split
      next hneg => exact iff_of_false (by decide) fun h ↦ h.2 hneg
      next hneg => exact iff_of_true rfl ⟨hx, hneg⟩
  | _ :: _ :: _ => simp [prefixed, shortestPush]

end Instruction

namespace Program

theorem keepsPushPolicy_concat_prefixed (hp : p.KeepsPushPolicy) :
    (p ++ [Instruction.prefixed d]).KeepsPushPolicy ↔
      ∀ x, d = [x] → ¬ (1 ≤ x ∧ x ≤ 16) ∧ x ≠ 0x81 := by
  have hpush := Instruction.isPush_prefixed d
  rw [keepsPushPolicy_append, keepsPushPolicy_cons, ← Instruction.checkShortest_prefixed]
  constructor
  · rintro ⟨-, ⟨-, hshort⟩, -⟩
    exact hshort hpush
  · intro hshort
    exact ⟨hp, ⟨Instruction.le_sixteen_of_isPush hpush, fun _ ↦ hshort⟩, rfl, nofun⟩

end Program

namespace Unlocker

theorem p2sh_eq_ok : p2sh u r = .ok s ↔ ∃ b, Push.data r.bytes = .ok b ∧ u ++ ⟨b⟩ = s := by
  simp only [p2sh, bind_eq_ok, pure_eq_ok, push_eq_ok]
  rfl

end Unlocker

theorem keepsPushPolicy_of_evaluate {env : Environment} {locking : Script}
    (hs : Program.ofScript s = .ok (p ++ [Instruction.prefixed d])) (hp : p.KeepsPushPolicy)
    (hmin : env.has .minimalData) (h : evaluate env s locking = .ok ()) :
    (p ++ [Instruction.prefixed d]).KeepsPushPolicy := by
  have hpush := Instruction.isPush_prefixed d
  have hop := Instruction.le_sixteen_of_isPush hpush
  obtain ⟨spend, saved, left, hprepare, hrun, -⟩ := evaluate_eq_ok_iff.1 h
  have hread := (Spend.prepare_eq_ok_iff.1 hprepare).unlocking_eq
  rw [← Except.ok.inj (hs.symm.trans hread)] at hrun
  obtain ⟨_, _, -, -, hshort, -⟩ := (Program.run_concat_push hp.isPushOnly hop).1 hrun
  rw [Program.keepsPushPolicy_concat_prefixed hp, ← Instruction.checkShortest_prefixed]
  exact hshort hpush hmin

/-- The script that a redeem script is appended to keeps the policy exactly if the redeem script is
not a byte with an opcode of its own. If it is, no spend is authorized where pushes have to be the
shortest; otherwise none is rejected for its pushes. -/
theorem Unlocker.p2sh_pushes (hu : Program.ofScript u = .ok p) (hp : p.KeepsPushPolicy)
    (hr : r.length ≤ 520) :
    ∃ s i, p2sh u r = .ok s ∧ Program.ofScript s = .ok (p ++ [i]) ∧ i.pushed? = some r.bytes ∧
      (p ++ [i]).isPushOnly ∧
      ((p ++ [i]).KeepsPushPolicy ↔ ∀ x, r.bytes = [x] → ¬ (1 ≤ x ∧ x ≤ 16) ∧ x ≠ 0x81) ∧
      ((p ++ [i]).KeepsPushPolicy → ∀ env locking, (Spend.unlock env s locking).SparesPushes) ∧
      (¬ (p ++ [i]).KeepsPushPolicy → ∀ env : Environment, env.has .minimalData →
        ∀ locking, evaluate env s locking ≠ .ok ()) := by
  obtain ⟨b, hb⟩ := Push.data_eq_ok (Nat.lt_of_le_of_lt hr (by decide))
  have hpush := Instruction.isPush_prefixed r.bytes
  have hs := Program.ofScript_append hu (Program.ofScript_data hb)
  refine ⟨u ++ ⟨b⟩, Instruction.prefixed r.bytes, p2sh_eq_ok.2 ⟨b, hb, rfl⟩, hs,
    Instruction.pushed?_of_isPush hpush, ?_, Program.keepsPushPolicy_concat_prefixed hp, ?_, ?_⟩
  · exact Program.isPushOnly_append.2 ⟨hp.isPushOnly, Program.isPushOnly_cons.2
      ⟨Instruction.le_sixteen_of_isPush hpush, rfl⟩⟩
  · exact fun hkeeps env locking ↦ hkeeps.sparesPushes_unlock hs
  · exact fun hnot env hmin locking h ↦ hnot (keepsPushPolicy_of_evaluate hs hp hmin h)

theorem Unlocker.p2sh_pushes_two :
    let u : Script := ⟨[0x52]⟩
    let r : Script := ⟨[0x52, 0x87]⟩
    let p : Program := [⟨0x52, []⟩]
    (Program.ofScript u = .ok p ∧ p.KeepsPushPolicy ∧ r.length ≤ 520) ∧
      ∃ s i, p2sh u r = .ok s ∧ Program.ofScript s = .ok (p ++ [i]) ∧ (p ++ [i]).KeepsPushPolicy ∧
        ∀ env locking, (Spend.unlock env s locking).SparesPushes := by
  intro u r p
  have hu : Program.ofScript u = .ok p := by decide +kernel
  have hp : p.KeepsPushPolicy := ⟨by decide, by decide⟩
  have hr : r.length ≤ 520 := by decide
  obtain ⟨s, i, hs, hread, -, -, hkeeps, hspares, -⟩ := p2sh_pushes hu hp hr
  have hlong : (p ++ [i]).KeepsPushPolicy := hkeeps.2 nofun
  exact ⟨⟨hu, hp, hr⟩, s, i, hs, hread, hlong, hspares hlong⟩

/-- The redeem script that only makes a number of what is below it, which is one byte. -/
theorem Unlocker.exists_p2sh_longPush :
    let u : Script := ⟨[0x51]⟩
    let r : Script := ⟨[0x81]⟩
    let p : Program := [⟨0x51, []⟩]
    (Program.ofScript u = .ok p ∧ p.KeepsPushPolicy ∧ r.length ≤ 520) ∧
      ∃ s, p2sh u r = .ok s ∧
        evaluate { flags := .standard } s (Lock.p2sh r) =
          reject (.longPush 1 1 Opcode.negate1) := by
  intro u r p
  refine ⟨⟨by decide +kernel, ⟨by decide, by decide⟩, by decide⟩, ⟨[0x51, 1, 0x81]⟩, rfl, ?_⟩
  refine evaluate_of_unlock_eq_error ?_
  decide +kernel

end BitcoinCash
