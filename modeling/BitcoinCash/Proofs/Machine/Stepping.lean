import BitcoinCash.Proofs.Machine.Faultless

namespace BitcoinCash

open Fallible (ok_bind)
open Run (Meets)

variable {env : Environment} {N : ℕ} {unlocking locking : Script}

namespace Progress

variable {p q : Progress} {s : Stack}

def outcome (env : Environment) (p : Progress) : Run Unit := (p.trace env).2

theorem outcome_of_finished (h : p.finished) : p.outcome env = p.conclude env := by
  rw [outcome, trace, dif_pos h]

theorem finishExhausted_of_not_exhausted (h : p.exhausted = false) :
    p.finishExhausted env = .ok p := by
  rw [finishExhausted, h]
  rfl

theorem settle_of_not_exhausted (h : p.exhausted = false) : p.settle env = .ok p := by
  simp only [settle, finishExhausted_of_not_exhausted h, ok_bind]

theorem step_of_not_exhausted {i : Instruction} (hx : p.exhausted = false)
    (hi : p.program[p.offset]? = some i) :
    p.step env = i.perform env ⟨p.program, p.offset⟩ p.frame >>= fun f ↦
      { p with frame := f, offset := p.offset + 1 }.finishExhausted env := by
  have hf : p.finished = false := by
    by_contra hf
    have hle : p.scripts.length ≤ p.script := of_decide_eq_true (eq_true_of_ne_false hf)
    rw [program, List.getD_eq_getElem?_getD, List.getElem?_eq_none hle] at hi
    cases hi
  have hitem : Checked.item p.program p.offset = .ok i := Checked.item_eq_ok.2 hi
  rw [step, stepBy, settle_of_not_exhausted hx, ok_bind, hf, item_scripts hf, ok_bind, hitem]
  rfl

theorem step_of_finished (h : p.finished) : p.step env = .ok p := by
  have hx : p.exhausted = false := by rw [exhausted, h]; rfl
  rw [step, stepBy, settle_of_not_exhausted hx, ok_bind, if_pos h]
  rfl

theorem outcome_eq_step (p : Progress) : p.outcome env = p.step env >>= outcome env := by
  by_cases h : p.finished
  · rw [step_of_finished h, ok_bind]
  · rw [outcome, trace, dif_neg h]
    split
    next hp => exact congrArg (· >>= outcome env) hp.symm
    next hp => exact congrArg (· >>= outcome env) hp.symm

theorem settle_of_finish (h : p.Bounded env N) (hx : p.exhausted) (hq : p.finish env = .ok q) :
    q.settle env = p.settle env := by
  have hp : p.settle env = q.finishExhausted env >>= finishExhausted env := by
    rw [settle, finishExhausted, if_pos hx, hq, ok_bind]
  have hthird : q.settle env = p.settle env >>= finishExhausted env := by
    rw [hp, bind_assoc]
    rfl
  rw [hthird]
  cases hs : p.settle env with
  | error e => rfl
  | ok s =>
    obtain ⟨-, hxs⟩ := (meets_settle (c := True) h).of_ok hs
    exact finishExhausted_of_not_exhausted hxs

theorem outcome_eq_finishExhausted (h : p.Bounded env N) :
    p.outcome env = p.finishExhausted env >>= outcome env := by
  rw [finishExhausted]
  split
  next hx =>
    cases hq : p.finish env with
    | error e =>
      have hstep : p.step env = .error e := by
        rw [step, stepBy, settle, finishExhausted, if_pos hx, hq]
        rfl
      rw [outcome_eq_step, hstep]
    | ok q =>
      have hstep : p.step env = q.step env := by
        rw [step, step, stepBy, stepBy, settle_of_finish h hx hq]
      rw [outcome_eq_step, hstep, ← outcome_eq_step, ok_bind]
  next => rfl

/-- The steps through what is left of the running script are its run. -/
theorem outcome_eq_runFrom (hN : env.Suffices N) (h : p.Bounded env N) (hp : p.finished = false)
    {rest : Program} (hrest : p.program.drop p.offset = rest) :
    p.outcome env = p.program.runFrom env p.offset rest p.frame >>= fun f ↦
      { p with frame := f, offset := p.program.length }.finish env >>= outcome env := by
  have hscript : p.script < p.scripts.length := by simpa [finished] using hp
  have hoffset := h.offset hscript
  induction rest generalizing p with
  | nil =>
    have hend : p.program.length ≤ p.offset := List.drop_eq_nil_iff.1 hrest
    have hx : p.exhausted := by simp [exhausted, hp, hend]
    rw [outcome_eq_finishExhausted h, finishExhausted, if_pos hx, Nat.le_antisymm hend hoffset]
    rfl
  | cons i rest ih =>
    have hlt : p.offset < p.program.length := by
      by_contra hge
      rw [List.drop_eq_nil_iff.2 (Nat.le_of_not_lt hge)] at hrest
      cases hrest
    have hx : p.exhausted = false := by simp [exhausted, hlt]
    rw [List.drop_eq_getElem_cons hlt, List.cons.injEq] at hrest
    obtain ⟨hi, hrest⟩ := hrest
    have hstep : p.step env = i.perform env ⟨p.program, p.offset⟩ p.frame >>= fun f ↦
        { p with frame := f, offset := p.offset + 1 }.finishExhausted env :=
      step_of_not_exhausted hx (List.getElem?_eq_some_iff.2 ⟨hlt, hi⟩)
    rw [outcome_eq_step, hstep, bind_assoc, Program.runFrom, bind_assoc]
    cases hf : i.perform env ⟨p.program, p.offset⟩ p.frame with
    | error e => rfl
    | ok f =>
      have hb : Bounded env N { p with frame := f, offset := p.offset + 1 } :=
        (meets_perform hN h hlt).of_ok (hi ▸ hf)
      rw [ok_bind, ok_bind, ← outcome_eq_finishExhausted hb]
      exact ih hb hp hrest hscript hlt

def after (p : Progress) (s : Stack) : Progress :=
  { p with frame := .start s, offset := p.program.length }

theorem outcome_eq_run (hN : env.Suffices N) (h : p.Bounded env N) (hp : p.finished = false)
    (hstart : p.frame = .start s) (hoffset : p.offset = 0) {next : Stack → Run Unit}
    (hnext : ∀ t, (p.after t).Bounded env N → (p.after t).finish env >>= outcome env = next t) :
    p.outcome env = p.program.run env s >>= next := by
  have hdrop : p.program.drop p.offset = p.program := by rw [hoffset, List.drop_zero]
  have hrun : p.outcome env =
      p.program.run env s >>= fun t ↦ (p.after t).finish env >>= outcome env := by
    rw [outcome_eq_runFrom hN h hp hdrop, hstart, hoffset, Program.run, bind_assoc]
    congr 1
    funext f
    rw [finish, bind_assoc, bind_assoc]
    congr 1
  rw [hrun]
  cases ht : p.program.run env s with
  | error e => rfl
  | ok t =>
    have hs := hstart ▸ h.frame.data
    have hsize := hstart ▸ h.size
    obtain ⟨hfits, hlen⟩ := (p.program.meets_run hN hs hsize).of_ok ht
    exact hnext t { h with
      frame := Frame.bounded_start hfits
      size := hlen
      offset := fun _ ↦ Nat.le_refl _ }

theorem finish_after_of_last (h0 : p.script ≠ 0) (h1 : p.script = 1 → p.p2sh = false) :
    (p.after s).finish env = (do s.checkResult; return p.advance s) := by
  obtain ⟨_, _, script, _, p2sh, _⟩ := p
  match script, h0 with
  | 1, _ =>
    cases h1 rfl
    rfl
  | _ + 2, _ => rfl

theorem finish_after_of_p2sh (h1 : p.script = 1) (hp2sh : p.p2sh) :
    (p.after s).finish env = (do
      s.checkResult
      let (redeem, rest) ← p.saved.takeRedeem env
      return { p with scripts := p.scripts ++ [redeem], saved := [] }.advance rest) := by
  obtain ⟨_, _, script, _, p2sh, _⟩ := p
  cases h1
  cases hp2sh
  rfl

/-- The last script decides, and leaves its stack to the rule on clean stacks. -/
theorem outcome_of_last (hN : env.Suffices N) (h : p.Bounded env N)
    (hlast : p.scripts.length = p.script + 1) (h0 : p.script ≠ 0)
    (h1 : p.script = 1 → p.p2sh = false) (hstart : p.frame = .start s) (hoffset : p.offset = 0) :
    p.outcome env = (do
      let left ← p.program.run env s
      left.checkResult
      left.checkClean env) := by
  have hp : p.finished = false := by simp [finished, hlast]
  refine outcome_eq_run hN h hp hstart hoffset fun t _ ↦ ?_
  have hclean : (p.advance t).outcome env = t.checkClean env :=
    outcome_of_finished (decide_eq_true (Nat.le_of_eq hlast))
  simp only [finish_after_of_last h0 h1, bind_assoc, pure_bind, hclean]

/-- A redeem script is taken off the stack that was saved, and is the last. -/
theorem outcome_of_p2sh (hN : env.Suffices N) (h : p.Bounded env N) (h1 : p.script = 1)
    (hp2sh : p.p2sh) (hstart : p.frame = .start s) (hoffset : p.offset = 0) :
    p.outcome env = (do
      let left ← p.program.run env s
      left.checkResult
      let (redeem, rest) ← p.saved.takeRedeem env
      let left ← redeem.run env rest
      left.checkResult
      left.checkClean env) := by
  have htwo : p.scripts.length = 2 := h.scripts_early (Nat.le_of_eq h1)
  have hp : p.finished = false := by simp [finished, htwo, h1]
  refine outcome_eq_run hN h hp hstart hoffset fun t hb ↦ ?_
  have hfinish := @finish_after_of_p2sh env p t h1 hp2sh
  cases hr : t.checkResult with
  | error e =>
    rw [hfinish, hr]
    rfl
  | ok =>
    cases ht : p.saved.takeRedeem env with
    | error e =>
      rw [hfinish, hr, ht]
      rfl
    | ok r =>
      rw [hr, ht] at hfinish
      have hq := ((meets_finish (c := True) hb).of_ok hfinish).1
      have hprogram : (p.scripts ++ [r.1]).getD (p.script + 1) [] = r.1 := by
        have hindex : p.script + 1 = p.scripts.length := by rw [h1, htwo]
        rw [hindex]
        simp
      have hlast := outcome_of_last hN hq (by simp [advance, htwo, h1]) (Nat.succ_ne_zero _)
        (fun h2 ↦ absurd h2 (by simp [advance, h1])) rfl rfl
      rw [hfinish]
      exact hlast.trans (congrArg (fun q : Program ↦ q.run env r.2 >>= _) hprogram)

end Progress

open Progress in
/-- Running a spend step by step is running its scripts one after the other. -/
theorem evaluate_eq_start_bind_outcome :
    evaluate env unlocking locking = start env unlocking locking >>= outcome env := by
  obtain ⟨N, hN⟩ := env.exists_suffices
  rw [evaluate, start, bind_assoc]
  cases hprep : Spend.prepare env unlocking locking with
  | error e => rfl
  | ok spend =>
    obtain ⟨u, l, p2sh⟩ := spend
    have h0 : Bounded env N ⟨.start [], [u, l], 0, 0, p2sh, []⟩ :=
      (@meets_start True env N unlocking locking).of_ok (by rw [start, hprep]; rfl)
    refine (outcome_eq_run hN h0 rfl rfl rfl fun saved hb ↦ ?_).symm
    have h1 := ((meets_finish (c := True) hb).of_ok rfl).1
    cases p2sh with
    | false => exact outcome_of_last hN h1 rfl Nat.one_ne_zero (fun _ ↦ rfl) rfl rfl
    | true =>
      refine (outcome_of_p2sh hN h1 rfl rfl rfl rfl).trans ?_
      simp only [if_true, pure_bind]
      rfl

theorem Instruction.performVarying_eq_perform :
    performVarying (env.at fun _ ↦ env.context) = perform env := by
  have hrun (here : Place) (i : Instruction) (f : Frame) (o : Operation) :
      o.runVarying (env.at fun _ ↦ env.context) here i f = o.run env here i f := by
    cases o <;> rfl
  funext here i f
  simp only [performVarying, perform, hrun]
  rfl

theorem evaluateVarying_eq_evaluate :
    evaluateVarying env (fun _ _ ↦ env.context) unlocking locking =
      evaluate env unlocking locking := by
  have hstep (p : Progress) : p.stepVarying env (fun _ ↦ env.context) = p.step env := by
    rw [Progress.stepVarying, Instruction.performVarying_eq_perform]
    rfl
  have houtcome (n : ℕ) (p : Progress) :
      p.outcomeVarying env (fun _ _ ↦ env.context) n = p.outcome env := by
    induction n, p using Progress.outcomeVarying.induct env fun _ _ ↦ env.context with
    | case1 n p hf => rw [Progress.outcomeVarying, dif_pos hf, Progress.outcome_of_finished hf]
    | case2 n p hf e he =>
      rw [Progress.outcomeVarying_eq_step (Bool.eq_false_iff.2 hf), Progress.outcome_eq_step, he,
        ← hstep, he]
      rfl
    | case3 n p hf u hu _ ih =>
      rw [Progress.outcomeVarying_eq_step (Bool.eq_false_iff.2 hf), Progress.outcome_eq_step, hu,
        ← hstep, hu]
      exact ih
  rw [evaluate_eq_start_bind_outcome, evaluateVarying]
  simp only [houtcome]

end BitcoinCash
