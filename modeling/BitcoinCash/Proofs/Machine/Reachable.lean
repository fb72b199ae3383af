import BitcoinCash.Machine.Trace
import BitcoinCash.Proofs.Machine.Bounds

namespace BitcoinCash

open Run (Meets)

variable {c : Prop} {env : Environment} {N : ℕ} {unlocking locking : Script}

theorem Program.meets_ofScript (s : Script) : Meets c (fun _ ↦ True) (ofScript s) := by
  unfold ofScript
  split
  · exact .ok trivial
  · exact .rejected

theorem Spend.meets_prepare : Meets c (fun _ ↦ True) (prepare env unlocking locking) := by
  refine meets_require_bind fun _ ↦ meets_require_bind fun _ ↦ meets_require_bind fun _ ↦ ?_
  refine (Program.meets_ofScript _).bind fun _ _ ↦ (Program.meets_ofScript _).bind fun _ _ ↦ ?_
  exact meets_require_bind fun _ ↦ meets_require_bind fun _ ↦ .pure trivial

namespace Progress

/-- The bounds on a run. A redeem script joins the two others only when these have been run. -/
structure Bounded (env : Environment) (N : ℕ) (p : Progress) : Prop where
  frame : p.frame.Bounded env N p.offset
  size : p.frame.size ≤ env.limits.stackSize
  saved : p.saved.Fits N
  saved_length : p.saved.length ≤ env.limits.stackSize
  scripts : p.scripts.length ≤ 3
  scripts_early : p.script ≤ 1 → p.scripts.length = 2
  offset : p.script < p.scripts.length → p.offset ≤ p.program.length

variable {p q : Progress} {s : Stack}

theorem bounded_advance (hs : s.Fits N) (hsize : s.length ≤ env.limits.stackSize)
    (hsaved : p.saved.Fits N) (hlength : p.saved.length ≤ env.limits.stackSize)
    (hscripts : p.scripts.length ≤ 3) (hearly : p.script = 0 → p.scripts.length = 2) :
    (p.advance s).Bounded env N where
  frame := Frame.bounded_start hs
  size := hsize
  saved := hsaved
  saved_length := hlength
  scripts := hscripts
  scripts_early h := hearly (Nat.le_zero.1 (Nat.le_of_succ_le_succ h))
  offset _ := Nat.zero_le _

theorem Bounded.advance (h : p.Bounded env N) (hs : s.Fits N)
    (hsize : s.length ≤ env.limits.stackSize) : (p.advance s).Bounded env N :=
  bounded_advance hs hsize h.saved h.saved_length h.scripts
    fun h0 ↦ h.scripts_early (h0 ▸ Nat.zero_le 1)

theorem meets_start : Meets c (Bounded env N) (start env unlocking locking) := by
  refine Spend.meets_prepare.bind fun _ _ ↦ .pure ?_
  exact
    { frame := Frame.bounded_start Stack.fits_nil
      size := Nat.zero_le _
      saved := Stack.fits_nil
      saved_length := Nat.zero_le _
      scripts := Nat.le_succ 2
      scripts_early := fun _ ↦ rfl
      offset := fun _ ↦ Nat.zero_le _ }

theorem Bounded.past {f : Frame} (h : p.Bounded env N) (hlt : p.offset < p.program.length)
    (hf : f.Bounded env N (p.offset + 1) ∧ f.size ≤ env.limits.stackSize) :
    Bounded env N { p with frame := f, offset := p.offset + 1 } :=
  { h with frame := hf.1, size := hf.2, offset := fun _ ↦ hlt }

theorem meets_checkResult (s : Stack) : Meets c (fun _ ↦ True) s.checkResult := by
  cases s with
  | nil => exact .rejected
  | cons => exact meets_check

theorem meets_takeRedeem (hs : s.Fits N) :
    Meets c (fun r ↦ r.2.Fits N ∧ r.2.length ≤ s.length) (s.takeRedeem env) := by
  cases s with
  | nil => exact .rejected
  | cons x s =>
    refine meets_require_bind fun _ ↦ (Program.meets_ofScript _).bind fun _ _ ↦ .pure ?_
    exact ⟨(Stack.fits_cons.1 hs).2, Nat.le_succ _⟩

theorem meets_finish (h : p.Bounded env N) :
    Meets c (fun q ↦ q.Bounded env N ∧ q.script = p.script + 1) (p.finish env) := by
  have hsize : p.frame.data.length ≤ env.limits.stackSize :=
    (Nat.le_add_right _ _).trans h.size
  refine meets_require_bind fun _ ↦ ?_
  split
  next h0 =>
    refine .pure ⟨?_, by rw [h0]; rfl⟩
    split
    · exact bounded_advance h.frame.data hsize h.frame.data hsize h.scripts
        fun _ ↦ h.scripts_early (h0 ▸ Nat.zero_le 1)
    · exact h.advance h.frame.data hsize
  next h1 =>
    have htwo : p.scripts.length = 2 := h.scripts_early (Nat.le_of_eq h1)
    refine (meets_checkResult _).bind fun _ _ ↦ .ite (fun _ ↦ ?_) fun _ ↦ ?_
    · refine (meets_takeRedeem h.saved).bind fun (redeem, rest) ⟨hrest, hlen⟩ ↦ ?_
      refine .pure ⟨?_, rfl⟩
      refine bounded_advance hrest (hlen.trans h.saved_length) Stack.fits_nil (Nat.zero_le _) ?_ ?_
      · rw [List.length_append, htwo]
        exact Nat.le_refl 3
      · intro h0
        rw [h1] at h0
        cases h0
    · exact .pure ⟨h.advance h.frame.data hsize, rfl⟩
  next =>
    exact (meets_checkResult _).bind fun _ _ ↦ .pure ⟨h.advance h.frame.data hsize, rfl⟩

theorem meets_finishExhausted (h : p.Bounded env N) :
    Meets c (fun q ↦ q.Bounded env N ∧ (q.exhausted → p.exhausted ∧ q.script = p.script + 1))
      (p.finishExhausted env) :=
  .ite (fun hp ↦ (meets_finish h).mono fun _ hq ↦ ⟨hq.1, fun _ ↦ ⟨hp, hq.2⟩⟩)
    fun hp ↦ .ok ⟨h, fun hq ↦ absurd hq hp⟩

theorem meets_settle (h : p.Bounded env N) :
    Meets c (fun q ↦ q.Bounded env N ∧ q.exhausted = false) (p.settle env) := by
  refine (meets_finishExhausted h).bind fun q ⟨hq, hpq⟩ ↦ ?_
  refine (meets_finishExhausted hq).bind fun r ⟨hr, hqr⟩ ↦ ?_
  refine (meets_finishExhausted hr).mono fun s ⟨hs, hrs⟩ ↦ ⟨hs, ?_⟩
  by_contra hx
  rw [Bool.not_eq_false] at hx
  obtain ⟨hxr, hsr⟩ := hrs hx
  obtain ⟨hxq, hrq⟩ := hqr hxr
  obtain ⟨-, hqp⟩ := hpq hxq
  have hscripts := hs.scripts
  simp only [exhausted, finished, Bool.and_eq_true, Bool.not_eq_true', decide_eq_false_iff_not] at hx
  omega

theorem lt_length_of_not_exhausted (hf : p.finished = false) (hx : p.exhausted = false) :
    p.offset < p.program.length := by
  simpa [exhausted, hf] using hx

theorem meets_perform (hN : env.Suffices N) (h : p.Bounded env N)
    (hlt : p.offset < p.program.length) :
    Meets (7 < env.limits.numberLength)
      (fun f ↦ Bounded env N { p with frame := f, offset := p.offset + 1 })
      (p.program[p.offset].perform env ⟨p.program, p.offset⟩ p.frame) :=
  (Instruction.meets_perform hN h.frame h.size hlt).mono fun _ hf ↦ h.past hlt hf

theorem meets_stepBy {perform : Place → Instruction → Frame → Run Frame}
    (hperform : ∀ here i f, here.offset < here.program.length →
      f.Bounded env N here.offset → f.size ≤ env.limits.stackSize →
      Meets (7 < env.limits.numberLength)
        (fun g ↦ g.Bounded env N (here.offset + 1) ∧ g.size ≤ env.limits.stackSize)
        (perform here i f))
    (h : p.Bounded env N) :
    Meets (7 < env.limits.numberLength) (Bounded env N) (p.stepBy perform env) := by
  refine (meets_settle h).bind fun q ⟨hq, hx⟩ ↦ .ite (fun _ ↦ .pure hq) fun hf ↦ ?_
  rw [Bool.not_eq_true] at hf
  have hlt : q.offset < q.program.length := lt_length_of_not_exhausted hf hx
  rw [item_scripts hf, Fallible.ok_bind, Checked.item_of_lt hlt, Fallible.ok_bind]
  refine (hperform ⟨q.program, q.offset⟩ _ q.frame hlt hq.frame hq.size).bind fun f hf ↦ ?_
  exact (meets_finishExhausted (hq.past hlt hf)).mono fun _ hr ↦ hr.1

theorem meets_step (hN : env.Suffices N) (h : p.Bounded env N) :
    Meets (7 < env.limits.numberLength) (Bounded env N) (p.step env) :=
  meets_stepBy (fun _ _ _ hplace hf hsize ↦ Instruction.meets_perform hN hf hsize hplace) h

/-- The states of the spend of an output under `locking` by `unlocking`. -/
inductive Reachable (env : Environment) (unlocking locking : Script) : Progress → Prop
  | start {p : Progress} : start env unlocking locking = .ok p → Reachable env unlocking locking p
  | step {p q : Progress} : Reachable env unlocking locking p → p.step env = .ok q →
    Reachable env unlocking locking q

theorem Reachable.bounded (hN : env.Suffices N) (h : Reachable env unlocking locking p) :
    p.Bounded env N := by
  induction h with
  | start hp => exact (meets_start (c := True)).of_ok hp
  | step _ hq ih => exact (meets_step hN ih).of_ok hq

/-- The bounds that a spend keeps at all times. -/
structure WithinLimits (env : Environment) (p : Progress) : Prop where
  size : p.frame.data.length + p.frame.alt.length ≤ env.limits.stackSize
  element : ∀ x ∈ p.frame.data ++ p.frame.alt ++ p.saved, x.length ≤ env.limits.elementSize
  opCount : p.frame.opCount ≤ env.limits.ops
  branches : p.frame.branches.length ≤ p.frame.opCount
  scripts : p.scripts.length ≤ 3
  place : p.script < p.scripts.length →
    p.frame.codeStart ≤ p.offset ∧ p.offset ≤ p.program.length

/-- Every state keeps the limits, if elements may be as long as a digest and stacks no longer than
a machine word can count. -/
theorem Reachable.withinLimits (helement : 32 ≤ env.limits.elementSize)
    (hstack : env.limits.stackSize < 2 ^ 64) (h : Reachable env unlocking locking p) :
    p.WithinLimits env := by
  have hdepth : 2 * env.limits.stackSize < 256 ^ env.limits.elementSize := by
    refine Nat.lt_of_lt_of_le ?_ (Nat.pow_le_pow_right (by decide) helement)
    have hword : 2 * 2 ^ 64 < 256 ^ 32 := by decide
    omega
  have hb := h.bounded ⟨helement, Nat.le_refl _, hdepth⟩
  exact
    { size := hb.size
      element := (hb.frame.data.append hb.frame.alt).append hb.saved
      opCount := hb.frame.opCount
      branches := hb.frame.branches
      scripts := hb.scripts
      place := fun hp ↦ ⟨hb.frame.codeStart, hb.offset hp⟩ }

theorem Reachable.withinLimits_openBranch :
    let env : Environment := { flags := .standard }
    ∃ p, Reachable env ⟨[0x51]⟩ ⟨[0x63, 0xab, 0x68, 0x51]⟩ p ∧ p.frame.branches = [true] ∧
      p.frame.codeStart = 2 ∧ p.WithinLimits env := by
  intro env
  let state (frame : Frame) (script offset : ℕ) : Progress :=
    { frame
      scripts := [[⟨0x51, []⟩], [⟨0x63, []⟩, ⟨0xab, []⟩, ⟨0x68, []⟩, ⟨0x51, []⟩]]
      script
      offset
      p2sh := false
      saved := [] }
  have h0 : Reachable env ⟨[0x51]⟩ ⟨[0x63, 0xab, 0x68, 0x51]⟩ (state (.start []) 0 0) :=
    .start (Fallible.toOption_eq_some.1 (by decide +kernel))
  have h1 : Reachable env _ _ (state (.start [[1]]) 1 0) :=
    h0.step (Fallible.toOption_eq_some.1 (by decide +kernel))
  have h2 : Reachable env _ _ (state ⟨[], [], [true], 1, 0⟩ 1 1) :=
    h1.step (Fallible.toOption_eq_some.1 (by decide +kernel))
  have h3 : Reachable env _ _ (state ⟨[], [], [true], 2, 2⟩ 1 2) :=
    h2.step (Fallible.toOption_eq_some.1 (by decide +kernel))
  exact ⟨_, h3, rfl, rfl, h3.withinLimits (by decide) (by decide)⟩

end Progress

end BitcoinCash
