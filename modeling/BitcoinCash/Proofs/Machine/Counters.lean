import BitcoinCash.Proofs.Bytes.Digits
import BitcoinCash.Proofs.Machine.Branches
import BitcoinCash.Proofs.Machine.Meets

namespace BitcoinCash

open Fallible (bind_eq_ok pure_eq_ok)
open Run (Meets)

variable {env : Environment} {here : Place} {i : Instruction} {f g : Frame}

/-- `g` has used at least the operations of `f`, and its script code starts at the same place. -/
structure Frame.Continues (f g : Frame) : Prop where
  opCount : f.opCount ≤ g.opCount
  codeStart : g.codeStart = f.codeStart

namespace Frame

theorem Continues.refl (f : Frame) : f.Continues f := ⟨Nat.le_refl _, rfl⟩

theorem Continues.trans {h : Frame} (hfg : f.Continues g) (hgh : g.Continues h) : f.Continues h :=
  ⟨Nat.le_trans hfg.opCount hgh.opCount, hgh.codeStart.trans hfg.codeStart⟩

theorem continues_bind {α : Type} {x : Run α} {k : α → Frame}
    (hk : ∀ a, f.Continues (k a)) : Meets True f.Continues (x >>= fun a ↦ pure (k a)) :=
  (Meets.any x).bind fun a _ ↦ .pure (hk a)

theorem continues_onData (k : Stack → Run Stack) : Meets True f.Continues (f.onData k) :=
  continues_bind fun _ ↦ ⟨Nat.le_refl _, rfl⟩

theorem continues_verifyTop (op : VerifyOp) : Meets True f.Continues (f.verifyTop op) :=
  (Meets.any _).bind fun _ _ ↦ continues_bind fun _ ↦ ⟨Nat.le_refl _, rfl⟩

theorem continues_settle (o : Outcome) (op : VerifyOp) : Meets True f.Continues (f.settle o op) := by
  cases o with
  | kept => exact .ok (.refl f)
  | verified => exact continues_verifyTop op

theorem continues_bind_settle {x : Run Frame} (hx : Meets True f.Continues x) (o : Outcome)
    (op : VerifyOp) : Meets True f.Continues (x >>= fun g ↦ g.settle o op) :=
  hx.bind fun _ hg ↦ (continues_settle o op).mono fun _ hr ↦ hg.trans hr

end Frame

namespace SignatureCheck

theorem continues_checkOne : Meets True f.Continues (checkOne env here f) := by
  refine (Meets.any _).bind fun (sig, q?) _ ↦ ?_
  cases q? with
  | none =>
    exact (Meets.any _).bind fun _ _ ↦ (Meets.any _).bind fun _ _ ↦
      Frame.continues_bind fun _ ↦ ⟨Nat.le_refl _, rfl⟩
  | some q =>
    exact (Meets.any _).bind fun _ _ ↦ (Meets.any _).bind fun _ _ ↦
      Frame.continues_bind fun _ ↦ ⟨Nat.le_refl _, rfl⟩

theorem continues_ballot : Meets True (fun r ↦ f.Continues r.2) (ballot env here f) := by
  refine (Meets.any _).bind fun n _ ↦ (Meets.any _).bind fun _ _ ↦ (Meets.any _).bind fun _ _ ↦ ?_
  refine (Meets.any _).bind fun m _ ↦ (Meets.any _).bind fun _ _ ↦ (Meets.any _).bind fun _ _ ↦ ?_
  refine (Meets.any _).bind fun sigs _ ↦ (Meets.any _).bind fun code _ ↦ ?_
  exact (Meets.any _).bind fun base _ ↦ .pure ⟨Nat.le_add_right _ _, rfl⟩

theorem continues_checkMany : Meets True f.Continues (checkMany env here f) := by
  refine continues_ballot.bind fun (b, g) hg ↦ (Meets.any _).bind fun valid _ ↦ ?_
  refine (Meets.any _).bind fun _ _ ↦ (Meets.any _).bind fun data _ ↦ ?_
  refine (Meets.any _).bind fun (dummy, rest) _ ↦ (Meets.any _).bind fun _ _ ↦ ?_
  exact .pure (hg.trans ⟨Nat.le_refl _, rfl⟩)

theorem continues_checkMessage : Meets True f.Continues (checkMessage env f) := by
  refine (Meets.any _).bind fun key _ ↦ (Meets.any _).bind fun message _ ↦ ?_
  refine (Meets.any _).bind fun sig _ ↦ (Meets.any _).bind fun _ _ ↦ (Meets.any _).bind fun _ _ ↦ ?_
  refine (Meets.any _).bind fun valid _ ↦ (Meets.any _).bind fun _ _ ↦ ?_
  exact Frame.continues_bind fun _ ↦ ⟨Nat.le_refl _, rfl⟩

end SignatureCheck

/-- Only a code separator moves the start of the script code. -/
theorem Operation.continues_run {o : Operation} (ho : o ≠ .codeSeparator) :
    Meets True f.Continues (o.run env here i f) := by
  cases o with
  | codeSeparator => exact absurd rfl ho
  | returnEarly | invalid => exact .rejected
  | branch negated =>
    refine .ite (fun _ ↦ ?_) fun _ ↦ .ok ⟨Nat.le_refl _, rfl⟩
    exact Frame.continues_bind fun _ ↦ ⟨Nat.le_refl _, rfl⟩
  | otherwise =>
    simp only [run, Frame.turnBranch]
    split
    · exact .ok ⟨Nat.le_refl _, rfl⟩
    · exact .rejected
  | endBranch =>
    simp only [run, Frame.closeBranch]
    split
    · exact .ok ⟨Nat.le_refl _, rfl⟩
    · exact .rejected
  | dupIfTrue =>
    refine (Meets.any _).bind fun x _ ↦ .pure ?_
    split
    · exact ⟨Nat.le_refl _, rfl⟩
    · exact .refl f
  | verify => exact Frame.continues_verifyTop _
  | checkLockTime | checkSequence | upgradableNop => exact Frame.continues_bind fun _ ↦ .refl f
  | toAlt | fromAlt | depth | digest => exact Frame.continues_bind fun _ ↦ ⟨Nat.le_refl _, rfl⟩
  | size =>
    exact (Meets.any _).bind fun x _ ↦ Frame.continues_bind fun _ ↦ ⟨Nat.le_refl _, rfl⟩
  | pick | roll =>
    exact (Meets.any _).bind fun _ _ ↦ Frame.continues_bind fun _ ↦ ⟨Nat.le_refl _, rfl⟩
  | drop | dup | copyBelow | rotate | swap | nip | tuck | cat | split | toBinary | toNumber
  | bitwise | unary | binary | divide | remainder | within =>
    simp only [run]
    exact Frame.continues_onData _
  | equal o | relation r o => exact Frame.continues_bind_settle (Frame.continues_onData _) o _
  | checkSig o => exact Frame.continues_bind_settle SignatureCheck.continues_checkOne o _
  | checkMultiSig o => exact Frame.continues_bind_settle SignatureCheck.continues_checkMany o _
  | checkDataSig o =>
    refine .ite (fun _ ↦ ?_) fun _ ↦ .rejected
    exact Frame.continues_bind_settle SignatureCheck.continues_checkMessage o _
  | pushData | pushNumber | nop => exact .ok ⟨Nat.le_refl _, rfl⟩

theorem Operation.ofOpcode_eq_codeSeparator {op : Opcode} :
    ofOpcode op = .codeSeparator ↔ op = Opcode.codeSeparator := by
  refine Bytes.of_toNat_lt op.toNat_lt ?_
  decide +kernel

namespace Instruction

theorem accept_eq_ok : i.accept env f = .ok g ↔
    i.data.length ≤ env.limits.elementSize ∧ (i.isCounted → f.opCount < env.limits.ops) ∧
      i.isDisabled env.flags = false ∧ g = { f with opCount := f.opCount + i.isCounted.toNat } := by
  cases hc : i.isCounted with
  | false =>
    have hi : i.op ≤ Opcode.sixteen := by simpa [isCounted, UInt8.not_lt] using hc
    simp [accept_push_eq_ok hi, isDisabled_of_le_sixteen hi]
  | true =>
    have hi : Opcode.sixteen < i.op := by simpa [isCounted] using hc
    simp [accept_counted_eq_ok hi]

/-- An instruction is accepted, and then passed over or run. -/
theorem accept_of_perform (h : i.perform env here f = .ok g) :
    ∃ a, i.accept env f = .ok a ∧
      (f.running = false ∧ i.isConditional = false ∧ g = a ∨
        (f.running ∨ i.isConditional) ∧ (Operation.ofOpcode i.op).run env here i a = .ok g) := by
  by_cases hi : i.isConditional
  · rw [perform_of_conditional hi] at h
    obtain ⟨a, ha, h⟩ := bind_eq_ok.1 h
    obtain ⟨r, hr, h⟩ := bind_eq_ok.1 h
    rw [checkSize_eq_ok h]
    exact ⟨a, ha, .inr ⟨.inr hi, hr⟩⟩
  cases hf : f.running with
  | false =>
    rw [perform_of_skipped (Bool.not_eq_true _ ▸ hi) hf] at h
    obtain ⟨a, ha, h⟩ := bind_eq_ok.1 h
    exact ⟨a, ha, .inl ⟨rfl, Bool.not_eq_true _ ▸ hi, checkSize_eq_ok h⟩⟩
  | true =>
    rw [perform_of_running hf] at h
    obtain ⟨a, ha, h⟩ := bind_eq_ok.1 h
    obtain ⟨-, h⟩ := Run.checkIf_eq_ok.1 h
    obtain ⟨r, hr, h⟩ := bind_eq_ok.1 h
    rw [checkSize_eq_ok h]
    exact ⟨a, ha, .inr ⟨.inl rfl, hr⟩⟩

theorem opCount_of_perform (h : i.perform env here f = .ok g) :
    f.opCount + i.isCounted.toNat ≤ g.opCount := by
  obtain ⟨a, ha, h⟩ := accept_of_perform h
  obtain ⟨-, -, -, rfl⟩ := accept_eq_ok.1 ha
  obtain ⟨-, -, rfl⟩ | ⟨-, h⟩ := h
  · exact Nat.le_refl _
  by_cases hop : Operation.ofOpcode i.op = .codeSeparator
  · rw [hop] at h
    cases h
    exact Nat.le_refl _
  · exact ((Operation.continues_run hop).of_ok h).opCount

def Separates (i : Instruction) (f : Frame) : Prop := f.running ∧ i.op = Opcode.codeSeparator

instance : Decidable (i.Separates f) := inferInstanceAs (Decidable (_ ∧ _))

theorem codeStart_of_perform (h : i.perform env here f = .ok g) :
    g.codeStart = if i.Separates f then here.offset + 1 else f.codeStart := by
  obtain ⟨a, ha, h⟩ := accept_of_perform h
  obtain ⟨-, -, -, rfl⟩ := accept_eq_ok.1 ha
  obtain ⟨hf, -, rfl⟩ | ⟨hrun, h⟩ := h
  · rw [if_neg fun hs ↦ Bool.false_ne_true (hf ▸ hs.1)]
  by_cases hop : Operation.ofOpcode i.op = .codeSeparator
  · have hi : i.op = Opcode.codeSeparator := Operation.ofOpcode_eq_codeSeparator.1 hop
    have hc : i.isConditional = false := by
      rw [isConditional, hi]
      rfl
    rw [hop] at h
    cases h
    rw [if_pos ⟨hrun.resolve_right (Bool.not_eq_true _ ▸ hc), hi⟩]
  · rw [if_neg fun hs ↦ hop (Operation.ofOpcode_eq_codeSeparator.2 hs.2)]
    exact ((Operation.continues_run hop).of_ok h).codeStart

end Instruction

end BitcoinCash
