import BitcoinCash.Machine.Answers
import BitcoinCash.Proofs.Machine.InPlace
import BitcoinCash.Proofs.Machine.Reachable
import BitcoinCash.Proofs.Script.Scan

namespace BitcoinCash

open Run (Meets)

variable {env : Environment} {N : ℕ} {unlocking locking : Script}

/-- Whatever the limits, some length is enough for all that operations make. -/
theorem Environment.exists_suffices (env : Environment) : ∃ N, env.Suffices N := by
  refine ⟨max 32 (max env.limits.elementSize env.limits.stackSize), by omega, by omega, ?_⟩
  refine Nat.lt_of_le_of_lt ?_ (two_mul_lt_pow _)
  omega

namespace Program

theorem meets_runFrom (hN : env.Suffices N) (program : Program) {rest : Program} {k : ℕ} {f : Frame}
    (hk : k + rest.length = program.length) (h : f.Bounded env N k)
    (hsize : f.size ≤ env.limits.stackSize) :
    Meets (7 < env.limits.numberLength)
      (fun g ↦ g.data.Fits N ∧ g.size ≤ env.limits.stackSize)
      (program.runFrom env k rest f) := by
  induction rest generalizing k f with
  | nil => exact .ok ⟨h.data, hsize⟩
  | cons i rest ih =>
    rw [List.length_cons] at hk
    have hplace : k < program.length := by omega
    refine (Instruction.meets_perform hN h hsize hplace).bind fun g ⟨hg, hgsize⟩ ↦ ?_
    exact ih (by omega) hg hgsize

theorem meets_run (hN : env.Suffices N) (p : Program) {s : Stack} (hs : s.Fits N)
    (hsize : s.length ≤ env.limits.stackSize) :
    Meets (7 < env.limits.numberLength)
      (fun t ↦ t.Fits N ∧ t.length ≤ env.limits.stackSize) (p.run env s) := by
  have hstart := (Frame.bounded_start hs : Frame.Bounded env N 0 _)
  refine (meets_runFrom hN p (Nat.zero_add _) hstart hsize).bind fun g ⟨hg, hgsize⟩ ↦ ?_
  exact meets_require_bind fun _ ↦ .pure ⟨hg, (Nat.le_add_right _ _).trans hgsize⟩

end Program

theorem meets_evaluate :
    Meets (7 < env.limits.numberLength) (fun _ ↦ True) (evaluate env unlocking locking) := by
  obtain ⟨N, hN⟩ := env.exists_suffices
  refine Spend.meets_prepare.bind fun spend _ ↦ ?_
  refine (spend.unlocking.meets_run hN Stack.fits_nil (Nat.zero_le _)).bind fun saved hsaved ↦ ?_
  refine (spend.locking.meets_run hN hsaved.1 hsaved.2).bind fun left _ ↦ ?_
  refine (Progress.meets_checkResult left).bind fun _ _ ↦ .ite (fun _ ↦ ?_) fun _ ↦ meets_check
  refine (Progress.meets_takeRedeem hsaved.1).bind fun (redeem, rest) ⟨hrest, hlen⟩ ↦ ?_
  refine (redeem.meets_run hN hrest (hlen.trans hsaved.2)).bind fun last _ ↦ ?_
  exact (Progress.meets_checkResult last).bind fun _ _ ↦ meets_check

section Varying

variable {k : ℕ} {here : Place} {i : Instruction} {f : Frame} {contexts : ℕ → Option Context}

theorem Frame.bounded_at {n : ℕ} :
    f.Bounded (env.at contexts n) N k ↔ f.Bounded env N k :=
  ⟨fun ⟨data, alt, opCount, branches, codeStart⟩ ↦ ⟨data, alt, opCount, branches, codeStart⟩,
    fun ⟨data, alt, opCount, branches, codeStart⟩ ↦ ⟨data, alt, opCount, branches, codeStart⟩⟩

theorem Operation.meets_runVarying (hN : env.Suffices N) (h : f.Bounded env N here.offset)
    (hsize : f.size ≤ env.limits.stackSize) (hplace : here.offset < here.program.length)
    (hi : i.data.length ≤ N) (hcount : i.isCounted → f.branches.length < f.opCount) :
    Meets (7 < env.limits.numberLength) (Frame.Bounded env N (here.offset + 1))
      ((ofOpcode i.op).runVarying (env.at contexts) here i f) := by
  have hN0 : (env.at contexts 0).Suffices N := ⟨hN.digest, hN.element, hN.depth⟩
  have hcode : f.codeStart ≤ here.program.length := h.codeStart.trans (Nat.le_of_lt hplace)
  by_cases hop : ∃ o, ofOpcode i.op = .checkMultiSig o
  · obtain ⟨o, ho⟩ := hop
    rw [ho]
    refine Meets.bind (SignatureCheck.meets_checkManyBy (Frame.bounded_at.2 h.next) hcode
      (Nat.le_trans (by decide) hN.digest) fun b hle ↦ ?_) fun g hg ↦ ?_
    · exact SignatureCheck.meets_matchKeysBy
        (fun _ sig key ↦ SignatureCheck.meets_attempt b.base sig key) hle
    · exact Frame.meets_settle (Frame.bounded_at.1 hg) o _
  · have hrun : (ofOpcode i.op).runVarying (env.at contexts) here i f =
        (ofOpcode i.op).run (env.at contexts 0) here i f := by
      unfold runVarying
      split
      next ho => exact absurd ⟨_, ho⟩ hop
      next => rfl
    rw [hrun]
    exact (meets_run hN0 (Frame.bounded_at.2 h) hsize hplace hi hcount).mono
      fun _ hg ↦ Frame.bounded_at.1 hg

theorem Instruction.meets_performVarying (hN : env.Suffices N) (h : f.Bounded env N here.offset)
    (hsize : f.size ≤ env.limits.stackSize) (hplace : here.offset < here.program.length) :
    Meets (7 < env.limits.numberLength)
      (fun g ↦ g.Bounded env N (here.offset + 1) ∧ g.size ≤ env.limits.stackSize)
      (performVarying (env.at contexts) here i f) := by
  have hN0 : (env.at contexts 0).Suffices N := ⟨hN.digest, hN.element, hN.depth⟩
  have hrun : Keeps (fun o g ↦ o.runVarying (env.at contexts) here i g) (env.at contexts 0) N
      here.offset i := fun g hg hgsize hi hcount ↦
    (Operation.meets_runVarying hN (Frame.bounded_at.1 hg) hgsize hplace hi hcount).mono
      fun _ hg ↦ Frame.bounded_at.2 hg
  exact (meets_performBy hrun hN0 (Frame.bounded_at.2 h) hsize).mono
    fun _ hg ↦ ⟨Frame.bounded_at.1 hg.1, hg.2⟩

theorem Progress.meets_stepVarying {p : Progress} (hN : env.Suffices N) (h : p.Bounded env N) :
    Meets (7 < env.limits.numberLength) (Bounded env N) (p.stepVarying env contexts) :=
  meets_stepBy
    (fun _ _ _ hplace hf hsize ↦ Instruction.meets_performVarying hN hf hsize hplace) h

theorem Progress.outcomeVarying_eq_step {contexts : ℕ → ℕ → Option Context} {n : ℕ} {p : Progress}
    (hf : p.finished = false) :
    p.outcomeVarying env contexts n =
      p.stepVarying env (contexts n) >>= outcomeVarying env contexts (n + 1) := by
  rw [outcomeVarying, dif_neg (by simp [hf])]
  split
  next h => exact congrArg (· >>= outcomeVarying env contexts (n + 1)) h.symm
  next h => exact congrArg (· >>= outcomeVarying env contexts (n + 1)) h.symm

theorem Progress.meets_outcomeVarying {contexts : ℕ → ℕ → Option Context} {n : ℕ} {p : Progress}
    (hN : env.Suffices N) (h : p.Bounded env N) :
    Meets (7 < env.limits.numberLength) (fun _ ↦ True) (p.outcomeVarying env contexts n) := by
  induction n, p using outcomeVarying.induct env contexts with
  | case1 n p hf =>
    rw [outcomeVarying, dif_pos hf]
    exact meets_check
  | case2 n p hf e he =>
    rw [outcomeVarying_eq_step (Bool.eq_false_iff.2 hf), he]
    exact (meets_stepVarying hN h).of_error he
  | case3 n p hf u hu _ ih =>
    rw [outcomeVarying_eq_step (Bool.eq_false_iff.2 hf), hu]
    exact ih ((meets_stepVarying hN h).of_ok hu)

theorem meets_evaluateVarying (contexts : ℕ → ℕ → Option Context) :
    Meets (7 < env.limits.numberLength) (fun _ ↦ True)
      (evaluateVarying env contexts unlocking locking) := by
  obtain ⟨N, hN⟩ := env.exists_suffices
  exact Progress.meets_start.bind fun _ hp ↦ Progress.meets_outcomeVarying hN hp

end Varying

theorem Chunk.scan_ne_fault (b : Bytes) (e : Fault) : scan b ≠ .error (.fault e) := by
  rw [scan_eq]
  cases decode b <;> simp [Except.mapError]

theorem Move.inPlace_ne_fault {m : Move} (hsize : 3 * m.size < 2 ^ 64) (s t : List Bytes)
    (e : Fault) : m.inPlace s ≠ .error (.fault e) t := by
  intro h
  obtain ⟨-, he, -⟩ := (inPlace_eq_error_iff hsize).1 h
  cases he

/-- With operands of at most seven bytes a spend is authorized or rejected, and no step on the way
is at fault, whatever a context says and however it answers the same question a second time. Nor is
the reading of a script by place or a move on the stack, with any number that an operand holds. -/
theorem evaluate_faultless (unlocking locking : Script) (hn : env.limits.numberLength ≤ 7) :
    (evaluate env unlocking locking = .ok () ∨
        ∃ r, evaluate env unlocking locking = .error (.rejected r)) ∧
      (∀ p, Progress.Reachable env unlocking locking p → ∀ e, p.step env ≠ .error (.fault e)) ∧
      (∀ contexts, evaluateVarying env contexts unlocking locking = .ok () ∨
        ∃ r, evaluateVarying env contexts unlocking locking = .error (.rejected r)) ∧
      (∀ b e, Chunk.scan b ≠ .error (.fault e)) ∧
      ∀ (m : Move) (s t : List Bytes) (e : Fault), 3 * m.size < 2 ^ 64 →
        m.inPlace s ≠ .error (.fault e) t := by
  have hshort : ¬ 7 < env.limits.numberLength := Nat.not_lt.2 hn
  refine ⟨?_, ?_, fun contexts ↦ ?_, Chunk.scan_ne_fault,
    fun m s t e hsize ↦ Move.inPlace_ne_fault hsize s t e⟩
  · rcases meets_evaluate.ok_or_rejected hshort with ⟨⟨⟩, h⟩ | h
    · exact .inl h
    · exact .inr h
  · intro p hp
    obtain ⟨N, hN⟩ := env.exists_suffices
    exact (Progress.meets_step hN (hp.bounded hN)).not_fault hshort
  · rcases (meets_evaluateVarying contexts).ok_or_rejected hshort with ⟨⟨⟩, h⟩ | h
    · exact .inl h
    · exact .inr h

theorem evaluate_faultless_divide :
    let env : Environment := { flags := .monolith, limits := { numberLength := 7 } }
    env.limits.numberLength ≤ 7 ∧
      ∃ r, evaluate env ⟨[0x51, 0x00]⟩ ⟨[0x96]⟩ = .error (.rejected r) := by
  intro env
  have hn : env.limits.numberLength ≤ 7 := Nat.le_refl 7
  refine ⟨hn, (evaluate_faultless ⟨[0x51, 0x00]⟩ ⟨[0x96]⟩ hn).1.resolve_left fun h ↦ ?_⟩
  have hfails : verifies env ⟨[0x51, 0x00]⟩ ⟨[0x96]⟩ = false := by decide +kernel
  rw [verifies, h] at hfails
  cases hfails

end BitcoinCash
