import BitcoinCash.Machine.Consultation
import BitcoinCash.Proofs.Machine.Counters
import BitcoinCash.Proofs.Machine.NumberWidth
import BitcoinCash.Proofs.Machine.ScriptCode
import BitcoinCash.Proofs.Machine.Spend
import BitcoinCash.Proofs.Machine.Stepping

namespace BitcoinCash

open Fallible (bind_eq_ok ok_bind pure_eq_ok)
open Run (Meets)

variable {env : Environment} {unlocking locking : Script}

/-- The scripts of a spend by the numbers under which they run. -/
inductive Script.Runs (env : Environment) (unlocking locking : Script) : ℕ → Script → Prop
  | unlocking : Runs env unlocking locking 0 unlocking
  | locking : Runs env unlocking locking 1 locking
  | redeem {redeem : Script} : env.has .p2sh → locking.isP2sh →
    unlocking.PushesLast redeem.bytes → Runs env unlocking locking 2 redeem

theorem Spend.Prepared.runs_redeem {s : Spend} {x : Bytes} {rest : Stack}
    (hs : s.Prepared env unlocking locking) (hp2sh : s.p2sh)
    (hrun : s.unlocking.run env [] = .ok (x :: rest)) :
    Script.Runs env unlocking locking 2 ⟨x⟩ := by
  have hpush : s.unlocking.isPushOnly := hs.pushOnly_p2sh.resolve_left (not_not_intro hp2sh)
  have hflags := hs.p2sh_eq.symm.trans hp2sh
  rw [Bool.and_eq_true] at hflags
  obtain ⟨front, i, hfront, hi⟩ := Program.exists_last_of_run hpush hrun
  have hlast : unlocking.PushesLast x := ⟨front, i, hfront ▸ hs.unlocking_eq, hi⟩
  exact .redeem hflags.1 hflags.2 hlast

namespace Progress

variable {p q : Progress} {s : Spend} {log : List (ℕ × ℕ)}

theorem finish_cases (h : p.finish env = .ok q) :
    p.frame.branches = [] ∧
      (p.script = 0 ∧
          q = { p with saved := if p.p2sh then p.frame.data else p.saved }.advance p.frame.data ∨
        p.script = 1 ∧ p.p2sh ∧ (∃ redeem rest, p.saved.takeRedeem env = .ok (redeem, rest) ∧
          q = { p with scripts := p.scripts ++ [redeem], saved := [] }.advance rest) ∨
        p.script ≠ 0 ∧ (p.script = 1 → p.p2sh = false) ∧ q = p.advance p.frame.data) := by
  obtain ⟨_, hclosed, h⟩ := bind_eq_ok.1 h
  refine ⟨List.isEmpty_iff.1 (require_eq_ok.1 hclosed), ?_⟩
  split at h
  next h0 =>
    cases h
    exact .inl ⟨h0, rfl⟩
  next h1 =>
    obtain ⟨_, -, h⟩ := bind_eq_ok.1 h
    split at h
    next hp2sh =>
      obtain ⟨⟨redeem, rest⟩, htake, h⟩ := bind_eq_ok.1 h
      cases h
      exact .inr (.inl ⟨h1, hp2sh, redeem, rest, htake, rfl⟩)
    next hp2sh =>
      cases h
      exact .inr (.inr ⟨h1 ▸ Nat.one_ne_zero, fun _ ↦ Bool.not_eq_true _ ▸ hp2sh, rfl⟩)
  next h0 h1 =>
    obtain ⟨_, -, h⟩ := bind_eq_ok.1 h
    cases h
    exact .inr (.inr ⟨h0, fun h ↦ absurd h h1, rfl⟩)

theorem codeStart_of_finish (h : p.finish env = .ok q) : q.frame.codeStart = 0 := by
  obtain ⟨-, ⟨-, rfl⟩ | ⟨-, -, _, _, -, rfl⟩ | ⟨-, -, rfl⟩⟩ := finish_cases h
  all_goals rfl

section Induction

variable {I : Progress → Prop} (hI : ∀ p q, p.exhausted → p.finish env = .ok q → I p → I q)
include hI

theorem finishExhausted_induction (hp : I p) (h : p.finishExhausted env = .ok q) : I q := by
  unfold finishExhausted at h
  split at h
  next hx => exact hI p q hx h hp
  next =>
    cases h
    exact hp

/-- What the end of a script preserves holds of a state once its exhausted scripts are finished. -/
theorem settle_induction (hp : I p) (h : p.settle env = .ok q) : I q := by
  obtain ⟨r, hr, h⟩ := bind_eq_ok.1 h
  obtain ⟨t, ht, h⟩ := bind_eq_ok.1 h
  have hr := finishExhausted_induction hI hp hr
  have ht := finishExhausted_induction hI hr ht
  exact finishExhausted_induction hI ht h

end Induction

/-- A step of a spend that is not at its end performs one instruction. -/
theorem step_cases (h : p.step env = .ok q) :
    ∃ r, p.settle env = .ok r ∧
      (r.finished ∧ q = r ∨
        r.finished = false ∧ ∃ i f, r.program[r.offset]? = some i ∧
          i.perform env ⟨r.program, r.offset⟩ r.frame = .ok f ∧
          { r with frame := f, offset := r.offset + 1 }.finishExhausted env = .ok q) := by
  obtain ⟨r, hr, h⟩ := bind_eq_ok.1 h
  refine ⟨r, hr, ?_⟩
  split at h
  next hf =>
    cases h
    exact .inl ⟨hf, rfl⟩
  next hf =>
    rw [Bool.not_eq_true] at hf
    rw [item_scripts hf, ok_bind] at h
    obtain ⟨i, hi, h⟩ := bind_eq_ok.1 h
    obtain ⟨f, hperform, h⟩ := bind_eq_ok.1 h
    exact .inr ⟨hf, i, f, Checked.item_eq_ok.1 hi, hperform, h⟩

/-- The state of the scripts of the spend `s`. A redeem script is what the unlocking script has left
on top. -/
structure Knows (env : Environment) (s : Spend) (p : Progress) : Prop where
  p2sh : p.p2sh = s.p2sh
  scripts : p.scripts = [s.unlocking, s.locking] ∨
    1 < p.script ∧ s.p2sh ∧ ∃ x rest redeem, s.unlocking.run env [] = .ok (x :: rest) ∧
      Program.ofScript ⟨x⟩ = .ok redeem ∧ p.scripts = [s.unlocking, s.locking, redeem]
  unlocking : p.script = 0 →
    s.unlocking.runFrom env 0 (s.unlocking.take p.offset) (.start []) = .ok p.frame
  saved : p.script = 1 → s.p2sh → s.unlocking.run env [] = .ok p.saved

namespace Knows

theorem scripts_eq (h : p.Knows env s) (hp : p.script ≤ 1) :
    p.scripts = [s.unlocking, s.locking] :=
  h.scripts.resolve_right fun hlast ↦ Nat.not_lt.2 hp hlast.1

theorem program_eq (h : p.Knows env s) (h0 : p.script = 0) : p.program = s.unlocking := by
  rw [program, h.scripts_eq (h0 ▸ Nat.zero_le 1), h0]
  rfl

theorem finish (h : p.Knows env s) (hx : p.exhausted) (hq : p.finish env = .ok q) :
    q.Knows env s := by
  obtain ⟨hclosed, ⟨h0, rfl⟩ | ⟨h1, hp2sh, redeem, rest, htake, rfl⟩ | ⟨h0, -, rfl⟩⟩ :=
    finish_cases hq
  · have hend : s.unlocking.length ≤ p.offset := by
      simp only [exhausted, Bool.and_eq_true, decide_eq_true_eq] at hx
      rw [← h.program_eq h0]
      exact hx.2
    have hrun : s.unlocking.run env [] = .ok p.frame.data := by
      have hall := h.unlocking h0
      rw [List.take_of_length_le hend] at hall
      rw [Program.run, hall, ok_bind, Frame.checkClosed, hclosed]
      rfl
    refine ⟨h.p2sh, .inl (h.scripts_eq (h0 ▸ Nat.zero_le 1)), fun h ↦ absurd h (Nat.succ_ne_zero _),
      fun _ hp2sh ↦ ?_⟩
    simp only [advance, h.p2sh, hp2sh, if_true]
    exact hrun
  · have hsaved := h.saved h1 (h.p2sh ▸ hp2sh)
    have hscripts := h.scripts_eq (Nat.le_of_eq h1)
    cases hp : p.saved with
    | nil => exact absurd (hp ▸ htake) reject_ne_ok
    | cons x saved =>
      obtain ⟨-, hredeem, -⟩ := Stack.takeRedeem_eq_ok.1 (hp ▸ htake)
      refine ⟨h.p2sh, .inr ⟨?_, h.p2sh ▸ hp2sh, x, saved, redeem, hp ▸ hsaved, hredeem, ?_⟩,
        fun h ↦ absurd h (Nat.succ_ne_zero _), fun h ↦ ?_⟩
      · simp [advance, h1]
      · simp [advance, hscripts]
      · simp [advance, h1] at h
  · refine ⟨h.p2sh, ?_, fun h ↦ absurd h (Nat.succ_ne_zero _), fun h ↦ absurd (Nat.succ.inj h) h0⟩
    exact h.scripts.imp_right fun hlast ↦ ⟨Nat.lt_succ_of_lt hlast.1, hlast.2⟩

theorem settle (h : p.Knows env s) (hq : p.settle env = .ok q) : q.Knows env s :=
  settle_induction (fun _ _ hx hq h ↦ h.finish hx hq) h hq

theorem step (h : p.Knows env s) (hq : p.step env = .ok q) : q.Knows env s := by
  obtain ⟨r, hr, ⟨-, rfl⟩ | ⟨-, i, f, hi, hf, hq⟩⟩ := step_cases hq
  · exact h.settle hr
  have h := h.settle hr
  refine finishExhausted_induction (fun _ _ hx hq h ↦ h.finish hx hq) ?_ hq
  refine ⟨h.p2sh, h.scripts, fun h0 ↦ ?_, h.saved⟩
  have hprogram := h.program_eq h0
  rw [hprogram] at hi hf
  have hlt : r.offset < s.unlocking.length := (List.getElem?_eq_some_iff.1 hi).1
  have hlen : (s.unlocking.take r.offset).length = r.offset := by
    rw [List.length_take, Nat.min_eq_left (Nat.le_of_lt hlt)]
  have htake : s.unlocking.take (r.offset + 1) = s.unlocking.take r.offset ++ [i] := by
    rw [List.take_add_one, hi]
    rfl
  simp only [htake, Program.runFrom_append, h.unlocking h0, ok_bind, hlen, Nat.zero_add,
    Program.runFrom, hf]

theorem start (h : Progress.start env unlocking locking = .ok p) :
    ∃ s, Spend.prepare env unlocking locking = .ok s ∧ p.Knows env s := by
  obtain ⟨s, hs, h⟩ := bind_eq_ok.1 h
  cases h
  exact ⟨s, hs, rfl, .inl rfl, fun _ ↦ rfl, nofun⟩

theorem exists_runs (h : p.Knows env s) (hs : s.Prepared env unlocking locking)
    (hp : p.finished = false) :
    ∃ script, Script.Runs env unlocking locking p.script script ∧
      Program.ofScript script = .ok p.program := by
  have hlt : p.script < p.scripts.length := by simpa [finished] using hp
  obtain hscripts | ⟨-, hp2sh, x, rest, redeem, hrun, hredeem, hscripts⟩ := h.scripts
  · rw [hscripts] at hlt
    rw [program, hscripts]
    obtain h0 | h1 : p.script = 0 ∨ p.script = 1 := Nat.le_one_iff_eq_zero_or_eq_one.1
      (Nat.le_of_lt_succ hlt)
    · rw [h0]
      exact ⟨unlocking, .unlocking, hs.unlocking_eq⟩
    · rw [h1]
      exact ⟨locking, .locking, hs.locking_eq⟩
  · rw [hscripts] at hlt
    rw [program, hscripts]
    obtain h0 | h1 | h2 : p.script = 0 ∨ p.script = 1 ∨ p.script = 2 := by
      simp only [List.length_cons, List.length_nil] at hlt
      omega
    · rw [h0]
      exact ⟨unlocking, .unlocking, hs.unlocking_eq⟩
    · rw [h1]
      exact ⟨locking, .locking, hs.locking_eq⟩
    · rw [h2]
      exact ⟨⟨x⟩, hs.runs_redeem hp2sh hrun, hredeem⟩

end Knows

theorem program_of_finished (h : p.finished) : p.program = [] := by
  have hle : p.scripts.length ≤ p.script := of_decide_eq_true h
  rw [program, List.getD_eq_getElem?_getD, List.getElem?_eq_none hle]
  rfl

/-- The code separator that the next step executes: the number of its script, and its offset
there. -/
def separator? (env : Environment) (p : Progress) : Option (ℕ × ℕ) :=
  match p.settle env with
  | .error _ => none
  | .ok q =>
    match q.program[q.offset]? with
    | none => none
    | some i => if i.Separates q.frame then some (q.script, q.offset) else none

/-- The state `p` of a spend and, the last first, the code separators that have been executed on
the way to it. -/
inductive History (env : Environment) (unlocking locking : Script) : List (ℕ × ℕ) → Progress → Prop
  | start {p : Progress} : start env unlocking locking = .ok p →
    History env unlocking locking [] p
  | step {log : List (ℕ × ℕ)} {p q : Progress} : History env unlocking locking log p →
    p.step env = .ok q → History env unlocking locking ((p.separator? env).toList ++ log) q

theorem reachable_iff_exists_history :
    Reachable env unlocking locking p ↔ ∃ log, History env unlocking locking log p := by
  constructor
  · intro h
    induction h with
    | start hp => exact ⟨[], .start hp⟩
    | step _ hq ih =>
      obtain ⟨log, h⟩ := ih
      exact ⟨_, h.step hq⟩
  · rintro ⟨log, h⟩
    induction h with
    | start hp => exact .start hp
    | step _ hq ih => exact ih.step hq

/-- The script code of the running script starts behind the last separator that was executed in
it. -/
structure Follows (log : List (ℕ × ℕ)) (p : Progress) : Prop where
  codeStart : p.frame.codeStart = (log.lookup p.script).elim 0 (· + 1)
  script_le : ∀ e ∈ log, e.1 ≤ p.script

namespace Follows

theorem finish (h : p.Follows log) (hq : p.finish env = .ok q) : q.Follows log := by
  have hscript : q.script = p.script + 1 := (script_of_finish hq).1
  have hlog : ∀ e ∈ log, e.1 ≤ p.script := h.script_le
  have hnone : log.lookup q.script = none := by
    refine List.lookup_eq_none_iff.2 fun e he ↦ ?_
    have := hlog e he
    rw [hscript, bne_iff_ne]
    omega
  refine ⟨by rw [codeStart_of_finish hq, hnone]; rfl, fun e he ↦ ?_⟩
  rw [hscript]
  exact Nat.le_succ_of_le (hlog e he)

theorem settle (h : p.Follows log) (hq : p.settle env = .ok q) : q.Follows log :=
  settle_induction (fun _ _ _ hq h ↦ h.finish hq) h hq

theorem step (h : p.Follows log) (hq : p.step env = .ok q) :
    q.Follows ((p.separator? env).toList ++ log) := by
  obtain ⟨r, hr, ⟨hfinished, rfl⟩ | ⟨-, i, f, hi, hf, hq⟩⟩ := step_cases hq
  · have hnone : p.separator? env = none := by
      simp only [separator?, hr, program_of_finished hfinished]
      rfl
    rw [hnone]
    exact h.settle hr
  have h := h.settle hr
  refine finishExhausted_induction (fun _ _ _ hq h ↦ h.finish hq) ?_ hq
  have hstart := Instruction.codeStart_of_perform hf
  simp only [separator?, hr, hi]
  split
  next hs =>
    rw [if_pos hs] at hstart
    refine ⟨?_, ?_⟩
    · simp [hstart]
    · simpa using h.script_le
  next hs =>
    rw [if_neg hs] at hstart
    exact ⟨hstart.trans h.codeStart, h.script_le⟩

theorem start (h : Progress.start env unlocking locking = .ok p) : p.Follows [] := by
  obtain ⟨s, -, h⟩ := bind_eq_ok.1 h
  cases h
  exact ⟨rfl, nofun⟩

end Follows

theorem History.follows (h : History env unlocking locking log p) : p.Follows log := by
  induction h with
  | start hp => exact .start hp
  | step _ hq ih => exact ih.step hq

theorem Reachable.exists_knows (h : Reachable env unlocking locking p) :
    ∃ s, Spend.prepare env unlocking locking = .ok s ∧ p.Knows env s := by
  induction h with
  | start hp => exact Knows.start hp
  | step _ hq ih =>
    obtain ⟨s, hs, h⟩ := ih
    exact ⟨s, hs, h.step hq⟩

/-- From `p` the next step, which finds itself in the state `q`, comes to a check of the signature
`sig` with the key `key`. -/
structure Checks (env : Environment) (p q : Progress) (sig key : Bytes) : Prop where
  settle_eq : p.settle env = .ok q
  instruction : ∃ i f o, q.program[q.offset]? = some i ∧ i.accept env q.frame = .ok f ∧
    Operation.ofOpcode i.op = .checkSig o
  running : q.frame.running
  data : ∃ rest, q.frame.data = key :: sig :: rest
  signature : Encoding.checkSignature env.flags sig = .ok ()
  key : Encoding.checkKey env.flags key = .ok ()

namespace Checks

variable {sig key : Bytes} (h : p.Checks env q sig key)
include h

theorem offset_lt : q.offset < q.program.length := by
  obtain ⟨_, _, _, hi, -⟩ := h.instruction
  exact (List.getElem?_eq_some_iff.1 hi).1

theorem not_finished : q.finished = false := by
  by_contra hend
  have hlt := h.offset_lt
  rw [program_of_finished (Bool.not_eq_false _ ▸ hend)] at hlt
  exact Nat.not_lt_zero _ hlt

theorem exists_question {base : Script} (hsig : sig ≠ [])
    (hbase : Place.code ⟨q.program, q.offset⟩ q.frame = .ok base) :
    ∃ i f o, q.program[q.offset]? = some i ∧ i.accept env q.frame = .ok f ∧ f.running ∧
      Operation.ofOpcode i.op = .checkSig o ∧
      SignatureCheck.question env ⟨q.program, q.offset⟩ f =
        env.codeFor base sig >>= fun code ↦ .ok (sig, some ⟨sig, key, code⟩) := by
  obtain ⟨i, f, o, hi, hf, hop⟩ := h.instruction
  obtain ⟨rest, hdata⟩ := h.data
  refine ⟨i, f, o, hi, hf, ?_, hop, ?_⟩ <;> obtain ⟨-, -, -, rfl⟩ := Instruction.accept_eq_ok.1 hf
  · exact h.running
  · exact SignatureCheck.question_eq_codeFor hdata hsig h.signature h.key hbase

/-- The step puts one question if there is a script code, and none otherwise. -/
theorem questions_eq {base : Script} (hsig : sig ≠ []) (hcontext : env.context.isSome)
    (hbase : Place.code ⟨q.program, q.offset⟩ q.frame = .ok base) :
    p.questions env =
      (env.codeFor base sig).toOption.toList.map fun code ↦ ⟨sig, key, code⟩ := by
  obtain ⟨i, f, o, hi, hf, hrunning, hop, hquestion⟩ := h.exists_question hsig hbase
  have hnone : env.context.isNone = false := by rw [← Option.not_isSome, hcontext, Bool.not_true]
  simp only [questions, h.settle_eq, hi, Instruction.questions, hnone, hf, hrunning, hop,
    hquestion]
  cases env.codeFor base sig <;> rfl

theorem step_eq_error {base : Script} {e : Halt} (hsig : sig ≠ [])
    (hbase : Place.code ⟨q.program, q.offset⟩ q.frame = .ok base)
    (hcode : env.codeFor base sig = .error e) : p.step env = .error e := by
  obtain ⟨i, f, o, hi, hf, hrunning, hop, hquestion⟩ := h.exists_question hsig hbase
  rw [hcode] at hquestion
  have hrun : (Operation.ofOpcode i.op).run env ⟨q.program, q.offset⟩ i f = .error e := by
    rw [hop, Operation.run, SignatureCheck.checkOne, hquestion]
    rfl
  have hperform : i.perform env ⟨q.program, q.offset⟩ q.frame = .error e := by
    have hpush : i.isPush = false := by
      by_contra hpush
      rw [Operation.ofOpcode, if_pos (of_decide_eq_true (eq_true_of_ne_false hpush))] at hop
      cases hop
    rw [Instruction.perform_eq, Instruction.execute_eq, hf, ok_bind, hrunning, hpush, hrun]
    rfl
  have hitem : Checked.item q.program q.offset = .ok i := Checked.item_eq_ok.2 hi
  rw [Progress.step, stepBy, h.settle_eq, ok_bind, h.not_finished, item_scripts h.not_finished,
    ok_bind, hitem, ok_bind, hperform]
  rfl

end Checks

/-- What is handed to the context in a state in which a check of one signature comes next. The code
is that of the running script behind the last code separator executed in it; without the
replay-protected digest, it is that without the pushes of the signature and the other separators.
Only a signature whose length no push can hold has no code then, and for it the step fails before
the context is asked. -/
theorem History.exists_code {sig key : Bytes} (h : History env unlocking locking log p)
    (hcheck : p.Checks env q sig key) (hsig : sig ≠ []) :
    ∃ (script base : Script) (xs : List Bytes),
      Script.Runs env unlocking locking q.script script ∧
      script.bytes = xs.flatten ∧ q.program.Cut xs ∧
      Place.code ⟨q.program, q.offset⟩ q.frame = .ok base ∧
      (env.usesForkId sig ∨ sig.length < 2 ^ 32 →
        ∃ code, env.codeFor base sig = .ok code ∧
          env.IsCodeFor sig (xs.drop ((log.lookup q.script).elim 0 (· + 1))) code ∧
          (env.context.isSome → p.questions env = [⟨sig, key, code⟩])) ∧
      (¬ (env.usesForkId sig ∨ sig.length < 2 ^ 32) →
        env.codeFor base sig = reject (.scriptCode .dataTooBig) ∧
          p.step env = reject (.scriptCode .dataTooBig) ∧
          (env.context.isSome → p.questions env = [])) := by
  have hp : Reachable env unlocking locking p := reachable_iff_exists_history.2 ⟨log, h⟩
  -- the running script, and its pieces
  obtain ⟨s, hs, hknows⟩ := hp.exists_knows
  obtain ⟨script, hruns, hprogram⟩ := (hknows.settle hcheck.settle_eq).exists_runs
    (Spend.prepare_eq_ok_iff.1 hs) hcheck.not_finished
  obtain ⟨xs, hxs, hcut⟩ := Program.Cut.exists_of_ofScript hprogram
  -- the place where its code starts
  obtain ⟨N, hN⟩ := env.exists_suffices
  obtain ⟨hbounded, -⟩ := (meets_settle (c := True) (hp.bounded hN)).of_ok hcheck.settle_eq
  have hle : q.frame.codeStart ≤ q.program.length :=
    hbounded.frame.codeStart.trans (Nat.le_of_lt hcheck.offset_lt)
  have hstart := (h.follows.settle hcheck.settle_eq).codeStart
  have hbase : Place.code ⟨q.program, q.offset⟩ q.frame =
      .ok ⟨(xs.drop q.frame.codeStart).flatten⟩ := Place.code_eq hcut hle
  refine ⟨script, _, xs, hruns, hxs, hcut, hbase, fun hfits ↦ ?_, fun hbig ↦ ?_⟩
  · obtain ⟨code, hcode, hiscode⟩ := Environment.codeFor_flatten (hcut.drop _) hsig hfits
    refine ⟨code, hcode, hstart ▸ hiscode, fun hcontext ↦ ?_⟩
    rw [hcheck.questions_eq hsig hcontext hbase, hcode]
    rfl
  · have hcode := Environment.codeFor_eq_reject hbig ⟨(xs.drop q.frame.codeStart).flatten⟩
    refine ⟨hcode, hcheck.step_eq_error hsig hbase hcode, fun hcontext ↦ ?_⟩
    rw [hcheck.questions_eq hsig hcontext hbase, hcode]
    rfl

theorem History.exists_code_separated :
    let env : Environment :=
      { flags := ⟨0⟩, context := some ⟨fun _ _ _ _ _ ↦ .ok false, 0, 1, fun _ ↦ 0⟩ }
    let unlocking : Script := ⟨[1, 0xaa, 1, 0xbb]⟩
    let locking : Script := ⟨[0xab, 1, 0xaa, 0x75, 0xac, 0xab]⟩
    ∃ p, History env unlocking locking [(1, 0)] p ∧ p.Checks env p [0xaa] [0xbb] ∧
      ∃ (script base code : Script) (xs : List Bytes),
        Script.Runs env unlocking locking 1 script ∧
        script.bytes = xs.flatten ∧ p.program.Cut xs ∧
        Place.code ⟨p.program, p.offset⟩ p.frame = .ok base ∧
        env.codeFor base [0xaa] = .ok code ∧ env.IsCodeFor [0xaa] (xs.drop 1) code ∧
        p.questions env = [⟨[0xaa], [0xbb], code⟩] ∧
        p.questions env = [⟨[0xaa], [0xbb], ⟨[0x75, 0xac]⟩⟩] := by
  intro env unlocking locking
  let state (frame : Frame) (script offset : ℕ) : Progress :=
    { frame
      scripts := [[⟨1, [0xaa]⟩, ⟨1, [0xbb]⟩],
        [⟨0xab, []⟩, ⟨1, [0xaa]⟩, ⟨0x75, []⟩, ⟨0xac, []⟩, ⟨0xab, []⟩]]
      script
      offset
      p2sh := false
      saved := [] }
  have next {log : List (ℕ × ℕ)} {p q : Progress} {o : Option (ℕ × ℕ)}
      (h : History env unlocking locking log p) (ho : p.separator? env = o)
      (hq : (p.step env).toOption = some q) : History env unlocking locking (o.toList ++ log) q :=
    ho ▸ h.step (Fallible.toOption_eq_some.1 hq)
  have h0 : History env unlocking locking [] (state (.start []) 0 0) :=
    .start (Fallible.toOption_eq_some.1 (by decide +kernel))
  have h1 : History env unlocking locking [] (state (.start [[0xaa]]) 0 1) :=
    next h0 (o := none) (by decide +kernel) (by decide +kernel)
  have h2 : History env unlocking locking [] (state (.start [[0xbb], [0xaa]]) 1 0) :=
    next h1 (o := none) (by decide +kernel) (by decide +kernel)
  have h3 : History env unlocking locking [(1, 0)]
      (state ⟨[[0xbb], [0xaa]], [], [], 1, 1⟩ 1 1) :=
    next h2 (o := some (1, 0)) (by decide +kernel) (by decide +kernel)
  have h4 : History env unlocking locking [(1, 0)]
      (state ⟨[[0xaa], [0xbb], [0xaa]], [], [], 1, 1⟩ 1 2) :=
    next h3 (o := none) (by decide +kernel) (by decide +kernel)
  have h5 : History env unlocking locking [(1, 0)]
      (state ⟨[[0xbb], [0xaa]], [], [], 2, 1⟩ 1 3) :=
    next h4 (o := none) (by decide +kernel) (by decide +kernel)
  have hcheck : (state ⟨[[0xbb], [0xaa]], [], [], 2, 1⟩ 1 3).Checks env
      (state ⟨[[0xbb], [0xaa]], [], [], 2, 1⟩ 1 3) [0xaa] [0xbb] :=
    { settle_eq := Fallible.toOption_eq_some.1 (by decide +kernel)
      instruction := ⟨⟨0xac, []⟩, ⟨[[0xbb], [0xaa]], [], [], 3, 1⟩, .kept, rfl,
        Fallible.toOption_eq_some.1 (by decide +kernel), by decide +kernel⟩
      running := rfl
      data := ⟨[], rfl⟩
      signature := Fallible.toOption_eq_some.1 (by decide +kernel)
      key := Fallible.toOption_eq_some.1 (by decide +kernel) }
  obtain ⟨script, base, xs, hruns, hxs, hcut, hbase, hfits, -⟩ :=
    h5.exists_code hcheck (List.cons_ne_nil _ _)
  obtain ⟨code, hcode, hiscode, hasks⟩ := hfits (.inr (by decide))
  exact ⟨_, h5, hcheck, script, base, code, xs, hruns, hxs, hcut, hbase, hcode, hiscode, hasks rfl,
    by decide +kernel⟩

/-- Raised limits let a number be drawn out to `2 ^ 32` bytes, and as a signature it has no code. -/
theorem exists_checks_codeFor_eq_reject :
    let env : Environment :=
      { flags := .monolith, limits := { elementSize := 2 ^ 32, numberLength := 5 },
        context := some ⟨fun _ _ _ _ _ ↦ .ok true, 0, 1, fun _ ↦ 0⟩ }
    let unlocking : Script := ⟨[0x00, 0x05, 0, 0, 0, 0, 1, 0x80, 0x00]⟩
    let locking : Script := ⟨[0xac]⟩
    ∃ (p : Progress) (sig : Bytes) (base : Script), Reachable env unlocking locking p ∧
      p.Checks env p sig [] ∧ sig ≠ [] ∧ Place.code ⟨p.program, p.offset⟩ p.frame = .ok base ∧
      (¬ ∃ code, env.codeFor base sig = .ok code) ∧
      p.step env = reject (.scriptCode .dataTooBig) := by
  intro env unlocking locking
  let state (frame : Frame) (script offset : ℕ) : Progress :=
    { frame
      scripts := [[⟨0, []⟩, ⟨5, [0, 0, 0, 0, 1]⟩, ⟨0x80, []⟩, ⟨0, []⟩], [⟨0xac, []⟩]]
      script
      offset
      p2sh := false
      saved := [] }
  have h0 : Reachable env unlocking locking (state (.start []) 0 0) :=
    .start (Fallible.toOption_eq_some.1 (by decide +kernel))
  have h1 : Reachable env unlocking locking (state (.start [[]]) 0 1) :=
    h0.step (Fallible.toOption_eq_some.1 (by decide +kernel))
  have h2 : Reachable env unlocking locking (state (.start [[0, 0, 0, 0, 1], []]) 0 2) :=
    h1.step (Fallible.toOption_eq_some.1 (by decide +kernel))
  -- the long string is known by its length alone, and no step looks into it
  obtain ⟨sig, hsig, hlength⟩ : ∃ sig : Bytes,
      Splice.toBinary env [[0, 0, 0, 0, 1], []] = .ok [sig] ∧ sig.length = 2 ^ 32 := by
    have hn : Number.decode env.numbers [0, 0, 0, 0, 1] = .ok (2 ^ 32) :=
      Fallible.toOption_eq_some.1 (by decide +kernel)
    rcases Splice.toBinary_cases (b := []) (s := []) hn with ⟨h, -⟩ | ⟨-, h, -⟩ | ⟨-, -, c, hc⟩
    · exact absurd h (by decide)
    · exact absurd h (by decide)
    · exact ⟨c, hc.1, hc.2.1⟩
  have next {p q : Progress} {i : Instruction} {g : Frame} (hp : Reachable env unlocking locking p)
      (hx : p.exhausted = false) (hi : p.program[p.offset]? = some i)
      (hg : i.perform env ⟨p.program, p.offset⟩ p.frame = .ok g)
      (hq : { p with frame := g, offset := p.offset + 1 }.finishExhausted env = .ok q) :
      Reachable env unlocking locking q := by
    refine hp.step ?_
    rw [step_of_not_exhausted hx hi, hg, ok_bind, hq]
  have h3 : Reachable env unlocking locking (state ⟨[sig], [], [], 1, 0⟩ 0 3) := by
    have hrun := congrArg (· >>= fun s ↦ .ok (Frame.mk s [] [] 1 0)) hsig
    exact next (i := ⟨0x80, []⟩) h2 rfl rfl
      ((Instruction.perform_counted_eq_ok (by decide) rfl).2
        ⟨Nat.zero_le _, by decide, by decide, hrun, of_decide_eq_true rfl⟩) rfl
  have h4 : Reachable env unlocking locking (state (.start [[], sig]) 1 0) :=
    next (i := ⟨0, []⟩) h3 rfl rfl
      ((Instruction.perform_push_eq_ok (by decide) rfl).2
        ⟨Nat.zero_le _, fun _ h ↦ absurd h (by decide), of_decide_eq_true rfl, [], rfl,
          rfl⟩) rfl
  have hsignature : Encoding.checkSignature .monolith sig = .ok () := by
    unfold Encoding.checkSignature Encoding.checkBareSignature
    split
    next => rfl
    next => split <;> rfl
  have hcheck : (state (.start [[], sig]) 1 0).Checks env (state (.start [[], sig]) 1 0) sig [] :=
    { settle_eq := settle_of_not_exhausted rfl
      instruction := ⟨⟨0xac, []⟩, ⟨[[], sig], [], [], 1, 0⟩, .kept, rfl, rfl, by decide +kernel⟩
      running := rfl
      data := ⟨[], rfl⟩
      signature := hsignature
      key := Fallible.toOption_eq_some.1 (by decide +kernel) }
  have hne : sig ≠ [] := List.ne_nil_of_length_pos (by omega)
  have hbase : Place.code ⟨[⟨0xac, []⟩], 0⟩ (.start [[], sig]) = .ok ⟨[0xac]⟩ := rfl
  have hforkId : ¬ env.usesForkId sig := fun h ↦
    absurd (Bool.and_eq_true_iff.1 h).1 (by decide)
  have hcode : env.codeFor ⟨[0xac]⟩ sig = reject (.scriptCode .dataTooBig) :=
    Environment.codeFor_eq_reject (not_or.2 ⟨hforkId, by rw [hlength]; exact lt_irrefl _⟩) _
  refine ⟨_, sig, _, h4, hcheck, hne, hbase, ?_, hcheck.step_eq_error hne hbase hcode⟩
  rintro ⟨code, h⟩
  cases hcode.symm.trans h

end Progress

end BitcoinCash
