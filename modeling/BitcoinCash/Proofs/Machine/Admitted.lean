import BitcoinCash.Proofs.Machine.Counters
import BitcoinCash.Proofs.Machine.Spend
import BitcoinCash.Proofs.Machine.Structured
import BitcoinCash.Transaction.Lock

namespace BitcoinCash

open Fallible (bind_eq_ok)

variable {env : Environment} {unlocking locking s : Script}

namespace Instruction

/-- The rules that an instruction keeps in any branch. The last excludes the two conditionals that
are reserved. -/
structure Admitted (env : Environment) (i : Instruction) : Prop where
  data : i.data.length ≤ env.limits.elementSize
  enabled : i.isDisabled env.flags = false
  unreserved : i.op ≠ 0x65 ∧ i.op ≠ 0x66

theorem admitted_of_perform {here : Place} {i : Instruction} {f g : Frame}
    (h : i.perform env here f = .ok g) :
    i.Admitted env ∧ (i.isCounted → f.opCount < env.limits.ops) := by
  obtain ⟨a, ha, -⟩ := accept_of_perform h
  obtain ⟨hdata, hops, henabled, -⟩ := accept_eq_ok.1 ha
  refine ⟨⟨hdata, henabled, ?_, ?_⟩, hops⟩
  · intro hop
    exact perform_reserved (.inl hop) h
  · intro hop
    exact perform_reserved (.inr hop) h

end Instruction

namespace Program

variable {p rest : Program} {data left : Stack}

structure Admitted (env : Environment) (p : Program) : Prop where
  instruction : ∀ i ∈ p, i.Admitted env
  ops : p.countP Instruction.isCounted ≤ env.limits.ops
  balanced : ∃ b : Block, p = b.flatten

/-- A run goes through every instruction that is left, and counts those that count. -/
theorem admitted_of_runFrom {offset : ℕ} {f g : Frame} (h : p.runFrom env offset rest f = .ok g) :
    (∀ i ∈ rest, i.Admitted env) ∧
      rest.countP Instruction.isCounted ≤ env.limits.ops - f.opCount := by
  induction rest generalizing offset f with
  | nil => exact ⟨nofun, Nat.zero_le _⟩
  | cons i rest ih =>
    obtain ⟨a, ha, h⟩ := bind_eq_ok.1 h
    obtain ⟨hi, hops⟩ := Instruction.admitted_of_perform ha
    obtain ⟨hrest, hcount⟩ := ih h
    refine ⟨List.forall_mem_cons.2 ⟨hi, hrest⟩, ?_⟩
    have hgrows := Instruction.opCount_of_perform ha
    rw [List.countP_cons]
    cases hc : i.isCounted with
    | false =>
      rw [hc] at hgrows
      simp only [Bool.toNat_false, Bool.false_eq_true, if_false] at hgrows ⊢
      omega
    | true =>
      have hlt := hops hc
      rw [hc] at hgrows
      simp only [Bool.toNat_true, if_true] at hgrows ⊢
      omega

theorem admitted_of_run (hs : ofScript s = .ok p) (h : p.run env data = .ok left) :
    p.Admitted env := by
  obtain ⟨g, hg, -⟩ := bind_eq_ok.1 h
  obtain ⟨hinstruction, hops⟩ := admitted_of_runFrom hg
  exact ⟨hinstruction, hops, exists_block_of_run hs h⟩

end Program

structure Script.Admitted (env : Environment) (s : Script) : Prop where
  length : s.length ≤ env.limits.scriptSize
  program : ∃ p, Program.ofScript s = .ok p ∧ p.Admitted env

theorem Spend.Ends.exists_redeem {spend : Spend} {saved left : Stack}
    (h : spend.Ends env saved left) (hp2sh : spend.p2sh) (hpush : spend.unlocking.isPushOnly)
    (hu : Program.ofScript unlocking = .ok spend.unlocking)
    (hrun : spend.unlocking.run env [] = .ok saved) :
    ∃ redeem : Script, unlocking.PushesLast redeem.bytes ∧ redeem.Admitted env := by
  rw [Ends, if_pos hp2sh] at h
  obtain ⟨q, rest, last, htake, hpasses, -⟩ := h
  cases saved with
  | nil => exact absurd htake reject_ne_ok
  | cons x saved =>
    obtain ⟨hlength, hq, rfl⟩ := Stack.takeRedeem_eq_ok.1 htake
    obtain ⟨p, i, hp, hi⟩ := Program.exists_last_of_run hpush hrun
    exact ⟨⟨x⟩, ⟨p, i, hp ▸ hu, hi⟩, hlength, q, hq, Program.admitted_of_run hq hpasses.run_eq⟩

/-- The scripts of an authorized spend keep the rules in all their branches, and so does the redeem
script, which is what the unlocking script pushes last. -/
theorem admitted_of_evaluate (h : evaluate env unlocking locking = .ok ()) :
    unlocking.Admitted env ∧ locking.Admitted env ∧
      (env.has .p2sh → locking.isP2sh →
        ∃ redeem : Script, unlocking.PushesLast redeem.bytes ∧ redeem.Admitted env) := by
  obtain ⟨spend, saved, left, hprepare, hunlocking, hlocking, hends⟩ := evaluate_eq_ok_iff.1 h
  have hprep := Spend.prepare_eq_ok_iff.1 hprepare
  refine ⟨⟨hprep.unlocking_length, _, hprep.unlocking_eq, ?_⟩,
    ⟨hprep.locking_length, _, hprep.locking_eq, ?_⟩, ?_⟩
  · exact Program.admitted_of_run hprep.unlocking_eq hunlocking
  · exact Program.admitted_of_run hprep.locking_eq hlocking.run_eq
  · intro hflag hshape
    have hp2sh : spend.p2sh := by rw [hprep.p2sh_eq, hflag, hshape]; rfl
    have hpush : spend.unlocking.isPushOnly := hprep.pushOnly_p2sh.resolve_left (not_not_intro hp2sh)
    exact hends.exists_redeem hp2sh hpush hprep.unlocking_eq hunlocking

theorem admitted_of_evaluate_redeem :
    let env : Environment := { flags := .standard }
    let redeem : Script := ⟨[0x51, 0x63, 0x51, 0x67, 0x6a, 0x68]⟩
    let unlocking : Script := ⟨6 :: redeem.bytes⟩
    evaluate env unlocking (Lock.p2sh redeem) = .ok () ∧
      ∃ s : Script, unlocking.PushesLast s.bytes ∧ s.Admitted env := by
  intro env redeem unlocking
  have h : evaluate env unlocking (Lock.p2sh redeem) = .ok () := verifies_iff.1 (by decide +kernel)
  exact ⟨h, (admitted_of_evaluate h).2.2 (by decide) (by decide +kernel)⟩

end BitcoinCash
