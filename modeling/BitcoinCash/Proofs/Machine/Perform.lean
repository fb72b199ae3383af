import BitcoinCash.Machine.Execute
import BitcoinCash.Proofs.Machine.Push

namespace BitcoinCash

open Fallible (bind_eq_ok pure_eq_ok)

variable {env : Environment} {here : Place} {i : Instruction} {f g : Frame}

theorem Operation.ofOpcode_of_le_sixteen {op : Opcode} (h : op ≤ Opcode.sixteen) :
    ofOpcode op = .pushData ∨ (∃ n, ofOpcode op = .pushNumber n) ∨ ofOpcode op = .invalid := by
  by_cases h4 : op ≤ Opcode.pushData4
  · exact .inl (if_pos h4)
  by_cases hn : op = Opcode.negate1
  · exact .inr (.inl ⟨-1, by rw [ofOpcode, if_neg h4, if_pos hn]⟩)
  by_cases h1 : Opcode.one ≤ op
  · exact .inr (.inl ⟨_, by rw [ofOpcode, if_neg h4, if_neg hn, if_pos ⟨h1, h⟩]⟩)
  · have : op = 0x50 := by
      rw [← UInt8.toNat_inj] at hn ⊢
      simp only [UInt8.le_iff_toNat_le, Opcode.pushData4, Opcode.negate1, Opcode.one] at h4 hn h1 ⊢
      simp only [UInt8.reduceToNat] at *
      omega
    exact .inr (.inr (by rw [this]; rfl))

namespace Instruction

theorem isDisabled_of_le_sixteen (hi : i.op ≤ Opcode.sixteen) (flags : Flags) :
    i.isDisabled flags = false := by
  have not_mem {ops : List Opcode} (hops : ops.all (Opcode.sixteen < ·)) : i.op ∉ ops := by
    intro hmem
    have hlt := of_decide_eq_true (List.all_eq_true.1 hops _ hmem)
    exact UInt8.not_lt.2 hi hlt
  rw [isDisabled, if_neg (not_mem rfl), if_neg (not_mem rfl)]

theorem accept_push_eq_ok (hi : i.op ≤ Opcode.sixteen) :
    i.accept env f = .ok g ↔ i.data.length ≤ env.limits.elementSize ∧ g = f := by
  have hc : i.isCounted = false := by simpa [isCounted, UInt8.not_lt] using hi
  simp only [accept, bind_eq_ok, pure_eq_ok, require_eq_ok, hc, isDisabled_of_le_sixteen hi]
  simp [eq_comm]

theorem run_push_eq_ok (hi : i.op ≤ Opcode.sixteen) :
    (Operation.ofOpcode i.op).run env here i f = .ok g ↔
      ∃ x, i.pushed? = some x ∧ g = f.push x := by
  unfold pushed?
  rcases Operation.ofOpcode_of_le_sixteen hi with h | ⟨n, h⟩ | h
  · simp [h, Operation.run, eq_comm]
  · simp [h, Operation.run, eq_comm]
  · simp [h, Operation.run, reject_ne_ok]

def IsShortest (env : Environment) (i : Instruction) : Prop :=
  i.isPush → env.has .minimalData → i.checkShortest = .ok ()

theorem execute_push_eq_ok (hi : i.op ≤ Opcode.sixteen) (hf : f.running) :
    i.execute env here f = .ok g ↔ i.data.length ≤ env.limits.elementSize ∧ i.IsShortest env ∧
      ∃ x, i.pushed? = some x ∧ g = f.push x := by
  simp only [execute_eq, bind_eq_ok, accept_push_eq_ok hi, and_assoc, exists_and_left,
    exists_eq_left, hf, Bool.not_true, Bool.false_and, Bool.true_and, Bool.false_eq_true, if_false]
  refine and_congr_right fun _ ↦ ?_
  rw [← run_push_eq_ok hi, IsShortest, ← and_imp, ← Bool.and_eq_true]
  exact Run.checkIf_eq_ok

/-- What it takes for a push to be performed, and what it does; where it stands does not matter. -/
theorem perform_push_eq_ok (hi : i.op ≤ Opcode.sixteen) (hf : f.running) :
    i.perform env here f = .ok g ↔
      i.data.length ≤ env.limits.elementSize ∧ i.IsShortest env ∧
      f.size < env.limits.stackSize ∧ ∃ x, i.pushed? = some x ∧ g = f.push x := by
  have size_push (x : Bytes) : (f.push x).size = f.size + 1 := by
    simp only [Frame.size, Frame.push, Frame.withData, List.length_cons, Nat.add_right_comm]
  simp only [perform_eq, bind_eq_ok, pure_eq_ok, require_eq_ok, execute_push_eq_ok hi hf]
  constructor
  · rintro ⟨_, ⟨hl, hs, x, hx, rfl⟩, _, hsize, rfl⟩
    rw [size_push] at hsize
    exact ⟨hl, hs, hsize, x, hx, rfl⟩
  · rintro ⟨hl, hs, hsize, x, hx, rfl⟩
    exact ⟨_, ⟨hl, hs, x, hx, rfl⟩, (), (size_push x).symm ▸ hsize, rfl⟩

theorem accept_counted_eq_ok (hi : Opcode.sixteen < i.op) :
    i.accept env f = .ok g ↔
      i.data.length ≤ env.limits.elementSize ∧ f.opCount < env.limits.ops ∧
      i.isDisabled env.flags = false ∧ g = { f with opCount := f.opCount + 1 } := by
  have hc : i.isCounted := by simpa [isCounted] using hi
  simp only [accept, bind_eq_ok, pure_eq_ok, require_eq_ok, hc, if_true, not_true_eq_false,
    false_or, Bool.not_eq_true]
  constructor
  · rintro ⟨_, hd, _, hops, _, he, rfl⟩
    exact ⟨hd, hops, he, rfl⟩
  · rintro ⟨hd, hops, he, rfl⟩
    exact ⟨(), hd, (), hops, (), he, rfl⟩

theorem perform_counted_eq_ok (hi : Opcode.sixteen < i.op) (hf : f.running) :
    i.perform env here f = .ok g ↔
      i.data.length ≤ env.limits.elementSize ∧ f.opCount < env.limits.ops ∧
      i.isDisabled env.flags = false ∧
      (Operation.ofOpcode i.op).run env here i { f with opCount := f.opCount + 1 } = .ok g ∧
      g.size ≤ env.limits.stackSize := by
  have hp : i.isPush = false := by
    have : Opcode.pushData4 < i.op := UInt8.lt_trans (by decide) hi
    simpa [isPush] using this
  have hf' : { f with opCount := f.opCount + 1 }.running = true := hf
  simp only [perform_eq, execute_eq, bind_eq_ok, pure_eq_ok, require_eq_ok, accept_counted_eq_ok hi]
  constructor
  · rintro ⟨g, ⟨_, ⟨hd, hops, he, rfl⟩, hg⟩, _, hsize, rfl⟩
    simp only [hf', hp] at hg
    exact ⟨hd, hops, he, hg, hsize⟩
  · rintro ⟨hd, hops, he, hg, hsize⟩
    refine ⟨g, ⟨_, ⟨hd, hops, he, rfl⟩, ?_⟩, (), hsize, rfl⟩
    simp only [hf', hp]
    exact hg

end Instruction

end BitcoinCash
