import BitcoinCash.Proofs.Machine.History
import BitcoinCash.Proofs.Machine.PayToScriptHash
import BitcoinCash.Proofs.Machine.Stepping
import Mathlib.Data.List.Infix

namespace BitcoinCash

open Fallible (bind_eq_ok ok_bind)

variable {env : Environment} {unlocking locking : Script}

theorem Program.ne_nil_of_isP2sh {p : Program} (h : ofScript locking = .ok p)
    (hp2sh : locking.isP2sh) : p ≠ [] := by
  rintro rfl
  have hempty : locking = ⟨[]⟩ := (Except.ok.inj (toScript_of_ofScript h)).symm
  rw [hempty] at hp2sh
  cases hp2sh

namespace Progress

variable {p q : Progress} {s : Spend}

/-- The instruction that the next step hands over. -/
def next? (env : Environment) (p : Progress) : Option Instruction :=
  match p.settle env with
  | .error _ => none
  | .ok q => q.program[q.offset]?

/-- Execution of an instruction at the present place, and the move past it. -/
def handOver (env : Environment) (i? : Option Instruction) (p : Progress) : Run Progress :=
  match i? with
  | none => .ok p
  | some i => do
    let frame ← i.perform env ⟨p.program, p.offset⟩ p.frame
    { p with frame, offset := p.offset + 1 }.finishExhausted env

def states (env : Environment) (p : Progress) : List Progress := p :: (p.trace env).1

def last (env : Environment) (p : Progress) : Progress := (p.trace env).1.getLastD p

def calls (env : Environment) (p : Progress) : List Progress :=
  (p.states env).filter (!·.finished)

def visited (env : Environment) (p : Progress) : List Instruction :=
  (p.states env).filterMap (next? env)

/-- The instructions of the known scripts up to the present place. -/
def done (p : Progress) : List Instruction :=
  (p.scripts.take p.script).flatten ++ p.program.take p.offset

/-- What becomes of the run from `p` on, in which the scripts `loaded` join those of `p`. -/
structure Traverses (env : Environment) (p : Progress) (loaded : List Program) : Prop where
  ends : (p.last env).finished ∨ ∃ e, (p.last env).step env = .error e
  loaded_length : loaded.length ≤ 1
  scripts_last : (p.last env).scripts = p.scripts ++ loaded
  scripts : ∀ q ∈ p.states env, q.scripts = p.scripts ∨ q.scripts = p.scripts ++ loaded
  /-- A step executes the instruction that it is counted with, and no other. -/
  step_eq : ∀ q ∈ p.states env, q.step env = q.settle env >>= handOver env (q.next? env)
  calls_length : (p.calls env).length ≤ (p.scripts ++ loaded).flatten.length + 1
  visited_isPrefix : p.visited env <+: (p.scripts ++ loaded).flatten
  visited_eq : (p.last env).finished → p.visited env = (p.scripts ++ loaded).flatten

section Place

theorem done_of_finished (h : p.finished) : p.done = p.scripts.flatten := by
  have hle : p.scripts.length ≤ p.script := of_decide_eq_true h
  rw [done, program_of_finished h, List.take_nil, List.append_nil, List.take_of_length_le hle]

theorem take_succ_scripts (h : p.finished = false) :
    p.scripts.take (p.script + 1) = p.scripts.take p.script ++ [p.program] := by
  have hlt : p.script < p.scripts.length := by simpa [finished] using h
  have hprogram : p.scripts[p.script]? = some p.program := by
    simp [program, List.getElem?_eq_getElem hlt]
  rw [List.take_add_one, hprogram]
  rfl

theorem done_isPrefix (p : Progress) : p.done <+: p.scripts.flatten := by
  cases hf : p.finished with
  | true => rw [done_of_finished hf]
  | false =>
    have htake : (p.scripts.take p.script).flatten ++ p.program <+: p.scripts.flatten := by
      rw [← List.flatten_concat, ← take_succ_scripts hf]
      exact (List.take_prefix _ _).flatten
    exact ((List.prefix_append_right_inj _).2 (List.take_prefix _ _)).trans htake

theorem done_of_finish (hx : p.exhausted) (h : p.finish env = .ok q) :
    q.done = p.done ∧ p.scripts <+: q.scripts := by
  simp only [exhausted, Bool.and_eq_true, Bool.not_eq_true', decide_eq_true_eq] at hx
  obtain ⟨hf, hend⟩ := hx
  have hlt : p.script < p.scripts.length := by simpa [finished] using hf
  have hdone : (p.scripts.take (p.script + 1)).flatten ++ [] = p.done := by
    rw [take_succ_scripts hf, List.flatten_concat, List.append_nil, done,
      List.take_of_length_le hend]
  obtain ⟨-, ⟨-, rfl⟩ | ⟨-, -, redeem, rest, -, rfl⟩ | ⟨-, -, rfl⟩⟩ := finish_cases h
  · exact ⟨hdone, List.prefix_rfl⟩
  · refine ⟨?_, List.prefix_append _ _⟩
    rw [← hdone]
    exact congrArg (List.flatten · ++ []) (List.take_append_of_le_length hlt)
  · exact ⟨hdone, List.prefix_rfl⟩

theorem done_of_finishes {r : Progress} (hr : r.done = p.done ∧ p.scripts <+: r.scripts)
    (hx : r.exhausted) (h : r.finish env = .ok q) : q.done = p.done ∧ p.scripts <+: q.scripts := by
  obtain ⟨hdone, hscripts⟩ := done_of_finish hx h
  exact ⟨hdone.trans hr.1, hr.2.trans hscripts⟩

theorem done_of_settle (h : p.settle env = .ok q) : q.done = p.done ∧ p.scripts <+: q.scripts :=
  settle_induction (fun _ _ hx h hr ↦ done_of_finishes hr hx h) ⟨rfl, List.prefix_rfl⟩ h

theorem done_succ {i : Instruction} (h : p.program[p.offset]? = some i) (f : Frame) :
    { p with frame := f, offset := p.offset + 1 }.done = p.done ++ [i] := by
  have htake : p.program.take (p.offset + 1) = p.program.take p.offset ++ [i] := by
    rw [List.take_add_one, h]
    rfl
  exact (congrArg _ htake).trans (List.append_assoc _ _ _).symm

theorem next?_of_settle (h : p.settle env = .ok q) : p.next? env = q.program[q.offset]? := by
  rw [next?, h]

/-- A step hands over the instruction that it goes past. -/
theorem done_of_step (h : p.step env = .ok q) :
    q.done = p.done ++ (p.next? env).toList ∧ p.scripts <+: q.scripts := by
  obtain ⟨r, hr, ⟨hfinished, rfl⟩ | ⟨-, i, f, hi, -, hq⟩⟩ := step_cases h
  · obtain ⟨hdone, hscripts⟩ := done_of_settle hr
    rw [next?_of_settle hr, program_of_finished hfinished, hdone]
    exact ⟨(List.append_nil _).symm, hscripts⟩
  · obtain ⟨hdone, hscripts⟩ := done_of_settle hr
    obtain ⟨hq, hsq⟩ := finishExhausted_induction
      (fun _ _ hx h hr ↦ done_of_finishes hr hx h) ⟨rfl, List.prefix_rfl⟩ hq
    rw [next?_of_settle hr, hi, hq, done_succ hi f, hdone]
    exact ⟨rfl, hscripts.trans hsq⟩

theorem finished_of_step (hn : p.next? env = none) (h : p.step env = .ok q) : q.finished := by
  obtain ⟨r, hr, ⟨hfinished, rfl⟩ | ⟨-, i, f, hi, -, -⟩⟩ := step_cases h
  · exact hfinished
  · rw [next?_of_settle hr, hi] at hn
    cases hn

end Place

section Trace

theorem trace_of_step (hf : p.finished = false) (h : p.step env = .ok q) :
    p.trace env = (q :: (q.trace env).1, (q.trace env).2) := by
  rw [trace, dif_neg (by simp [hf])]
  split
  next h' => cases h.symm.trans h'
  next h' =>
    cases h.symm.trans h'
    rfl

theorem trace_of_ends (h : p.finished ∨ ∃ e, p.step env = .error e) : (p.trace env).1 = [] := by
  rw [trace]
  split
  next => rfl
  next hf =>
    obtain ⟨e, he⟩ := h.resolve_left hf
    split
    next => rfl
    next h' => cases he.symm.trans h'

theorem run_induction (env : Environment) {motive : Progress → Prop}
    (ends : ∀ p, (p.finished ∨ ∃ e, p.step env = .error e) → motive p)
    (step : ∀ p q, p.finished = false → p.step env = .ok q → motive q → motive p)
    (p : Progress) : motive p := by
  induction p using trace.induct env with
  | case1 p hf => exact ends p (.inl hf)
  | case2 p hf e he => exact ends p (.inr ⟨e, he⟩)
  | case3 p hf q hq _ _ _ _ ih => exact step p q (by simpa using hf) hq ih

theorem states_of_ends (h : p.finished ∨ ∃ e, p.step env = .error e) : p.states env = [p] := by
  rw [states, trace_of_ends h]

theorem states_of_step (hf : p.finished = false) (h : p.step env = .ok q) :
    p.states env = p :: q.states env := by
  rw [states, trace_of_step hf h]
  rfl

theorem last_of_ends (h : p.finished ∨ ∃ e, p.step env = .error e) : p.last env = p := by
  rw [last, trace_of_ends h]
  rfl

theorem last_of_step (hf : p.finished = false) (h : p.step env = .ok q) :
    p.last env = q.last env := by
  rw [last, trace_of_step hf h]
  exact List.getLastD_cons

theorem last_ends (p : Progress) :
    (p.last env).finished ∨ ∃ e, (p.last env).step env = .error e := by
  induction p using run_induction env with
  | ends p h => rwa [last_of_ends h]
  | step p q hf hq ih => rwa [last_of_step hf hq]

theorem last_mem_states (p : Progress) : p.last env ∈ p.states env := by
  induction p using run_induction env with
  | ends p h =>
    rw [last_of_ends h, states_of_ends h]
    exact List.mem_singleton_self p
  | step p q hf hq ih =>
    rw [last_of_step hf hq, states_of_step hf hq]
    exact List.mem_cons_of_mem p ih

/-- What steps preserve holds in all states of a run. -/
theorem states_induction {I : Progress → Prop}
    (hI : ∀ p q, p.step env = .ok q → I p → I q) (hp : I p) : ∀ q ∈ p.states env, I q := by
  induction p using run_induction env with
  | ends p h =>
    rw [states_of_ends h]
    exact List.forall_mem_singleton.2 hp
  | step p q hf hq ih =>
    rw [states_of_step hf hq]
    exact List.forall_mem_cons.2 ⟨hp, ih (hI p q hq hp)⟩

end Trace

section Run

theorem scripts_isPrefix_last : ∀ q ∈ p.states env, q.scripts <+: (p.last env).scripts := by
  induction p using run_induction env with
  | ends p h =>
    rw [states_of_ends h, last_of_ends h]
    exact List.forall_mem_singleton.2 List.prefix_rfl
  | step p q hf hq ih =>
    rw [states_of_step hf hq, last_of_step hf hq]
    exact List.forall_mem_cons.2 ⟨(done_of_step hq).2.trans (ih q List.mem_cons_self), ih⟩

theorem scripts_isPrefix : ∀ q ∈ p.states env, p.scripts <+: q.scripts :=
  states_induction (fun _ _ hq h ↦ h.trans (done_of_step hq).2) List.prefix_rfl

theorem scripts_eq_or_eq {loaded : List Program} (hlength : loaded.length ≤ 1)
    (hp : p.scripts <+: q.scripts) (hq : q.scripts <+: p.scripts ++ loaded) :
    q.scripts = p.scripts ∨ q.scripts = p.scripts ++ loaded := by
  obtain ⟨joined, hjoined⟩ := hp
  rw [← hjoined, List.prefix_append_right_inj] at hq
  cases joined with
  | nil => exact .inl (by rw [← hjoined, List.append_nil])
  | cons r joined =>
    have heq : r :: joined = loaded :=
      hq.eq_of_length_le (hlength.trans (Nat.le_add_left 1 _))
    exact .inr (by rw [← hjoined, heq])

theorem next?_of_finished (h : p.finished) : p.next? env = none := by
  have hx : p.exhausted = false := by rw [exhausted, h]; rfl
  rw [next?_of_settle (settle_of_not_exhausted hx), program_of_finished h]
  rfl

theorem visited_of_ends (h : p.finished ∨ ∃ e, p.step env = .error e) :
    p.visited env = (p.next? env).toList := by
  rw [visited, states_of_ends h]
  cases hn : p.next? env <;> simp [hn]

theorem visited_of_step (hf : p.finished = false) (h : p.step env = .ok q) :
    p.visited env = (p.next? env).toList ++ q.visited env := by
  rw [visited, states_of_step hf h]
  cases hn : p.next? env <;> simp [hn, visited]

/-- The run hands over what lies between its first place and its last. -/
theorem done_append_visited (p : Progress) :
    p.done ++ p.visited env = (p.last env).done ++ ((p.last env).next? env).toList := by
  induction p using run_induction env with
  | ends p h => rw [visited_of_ends h, last_of_ends h]
  | step p q hf hq ih =>
    rw [visited_of_step hf hq, ← List.append_assoc, ← (done_of_step hq).1, ih,
      last_of_step hf hq]

theorem length_calls_le (p : Progress) :
    (p.calls env).length ≤ (p.visited env).length + 1 := by
  induction p using run_induction env with
  | ends p h =>
    rw [calls, states_of_ends h]
    exact (List.length_filter_le _ _).trans (Nat.le_add_left 1 _)
  | step p q hf hq ih =>
    have hcalls : p.calls env = p :: q.calls env := by simp [calls, states_of_step hf hq, hf]
    rw [hcalls, visited_of_step hf hq, List.length_append, List.length_cons]
    cases hn : p.next? env with
    | some i => simpa [Nat.add_comm 1] using ih
    | none =>
      have hnil : q.calls env = [] := by
        rw [calls, states_of_ends (.inl (finished_of_step hn hq))]
        simp [finished_of_step hn hq]
      simp [hnil]

/-- A step performs the instruction that it hands over, and nothing if there is none. -/
theorem Reachable.step_eq (h : Reachable env unlocking locking p) :
    p.step env = p.settle env >>= handOver env (p.next? env) := by
  obtain ⟨N, hN⟩ := env.exists_suffices
  rw [Progress.step, stepBy]
  cases hr : p.settle env with
  | error e => rfl
  | ok r =>
    obtain ⟨-, hx⟩ := (meets_settle (c := True) (h.bounded hN)).of_ok hr
    rw [ok_bind, ok_bind, next?_of_settle hr]
    cases hf : r.finished with
    | true =>
      rw [if_pos rfl, program_of_finished hf]
      rfl
    | false =>
      have hlt : r.offset < r.program.length := lt_length_of_not_exhausted hf hx
      rw [if_neg Bool.false_ne_true, item_scripts hf, ok_bind, Checked.item_of_lt hlt, ok_bind,
        List.getElem?_eq_getElem hlt, handOver]

theorem Reachable.of_mem_states (h : Reachable env unlocking locking p) :
    ∀ q ∈ p.states env, Reachable env unlocking locking q :=
  states_induction (fun _ _ hq hp ↦ hp.step hq) h

theorem traverses_of_last {loaded : List Program} (hp : Reachable env unlocking locking p)
    (hdone : p.done = [])
    (hlength : loaded.length ≤ 1) (hscripts : (p.last env).scripts = p.scripts ++ loaded)
    (hlast : (p.last env).done ++ ((p.last env).next? env).toList <+:
      (p.last env).scripts.flatten) :
    p.Traverses env loaded := by
  have hvisited : p.visited env = (p.last env).done ++ ((p.last env).next? env).toList := by
    rw [← done_append_visited, hdone, List.nil_append]
  have hprefix : p.visited env <+: (p.scripts ++ loaded).flatten := by
    rwa [hvisited, ← hscripts]
  exact
    { ends := last_ends p
      loaded_length := hlength
      scripts_last := hscripts
      scripts := fun q hq ↦ scripts_eq_or_eq hlength (scripts_isPrefix q hq)
        (hscripts ▸ scripts_isPrefix_last q hq)
      step_eq := fun q hq ↦ (hp.of_mem_states q hq).step_eq
      calls_length := (length_calls_le p).trans (Nat.succ_le_succ hprefix.length_le)
      visited_isPrefix := hprefix
      visited_eq := fun hf ↦ by
        rw [hvisited, next?_of_finished hf, done_of_finished hf, hscripts]
        exact List.append_nil _ }

end Run

section Loaded

theorem offset_of_finish (h : p.finish env = .ok q) : q.offset = 0 := by
  obtain ⟨-, ⟨-, rfl⟩ | ⟨-, -, _, _, -, rfl⟩ | ⟨-, -, rfl⟩⟩ := finish_cases h
  all_goals rfl

/-- Only an empty script is exhausted when a step begins. -/
theorem Reachable.offset_of_exhausted (h : Reachable env unlocking locking p)
    (hx : p.exhausted) : p.offset = 0 := by
  cases h with
  | start hp =>
    obtain ⟨_, -, h⟩ := bind_eq_ok.1 hp
    cases h
    rfl
  | step _ hq =>
    obtain ⟨_, -, ⟨hf, rfl⟩ | ⟨-, _, _, -, -, hq⟩⟩ := step_cases hq
    · simp [exhausted, hf] at hx
    · unfold finishExhausted at hq
      split at hq
      next => exact offset_of_finish hq
      next hnot =>
        cases hq
        exact absurd hx hnot

/-- The one script at whose end another joins is that of a script hash. It is not empty, so that
its end belongs to the step that executes its last instruction. -/
theorem Knows.scripts_of_finish (h : p.Knows env s) (hs : s.Prepared env unlocking locking)
    (hoffset : p.offset = 0) (hx : p.exhausted) (hq : p.finish env = .ok q) :
    q.scripts = p.scripts := by
  obtain ⟨-, ⟨-, rfl⟩ | ⟨h1, hp2sh, _, _, -, rfl⟩ | ⟨-, -, rfl⟩⟩ := finish_cases hq
  · rfl
  · have hprogram : p.program = s.locking := by
      rw [program, h.scripts_eq (Nat.le_of_eq h1), h1]
      rfl
    have hlocking : locking.isP2sh := by
      have hboth := hs.p2sh_eq.symm.trans (h.p2sh ▸ hp2sh)
      exact (Bool.and_eq_true _ _ ▸ hboth).2
    have hempty : s.locking = [] := by
      rw [exhausted, hprogram, hoffset, Bool.and_eq_true, decide_eq_true_eq] at hx
      exact List.eq_nil_of_length_eq_zero (Nat.le_zero.1 hx.2)
    exact absurd hempty (Program.ne_nil_of_isP2sh hs.locking_eq hlocking)
  · rfl

theorem Knows.scripts_of_settle (h : p.Knows env s) (hs : s.Prepared env unlocking locking)
    (hoffset : p.exhausted → p.offset = 0) (hq : p.settle env = .ok q) :
    q.scripts = p.scripts :=
  (settle_induction
    (I := fun r ↦ r.scripts = p.scripts ∧ r.Knows env s ∧ (r.exhausted → r.offset = 0))
    (fun _ _ hx hq ⟨hscripts, hknows, hoffset⟩ ↦
      ⟨(hknows.scripts_of_finish hs (hoffset hx) hx hq).trans hscripts, hknows.finish hx hq,
        fun _ ↦ offset_of_finish hq⟩)
    ⟨rfl, h, hoffset⟩ hq).1

/-- What a step hands over, it finds at its place among the scripts that are known before it. -/
theorem Reachable.done_append_next?_isPrefix (h : Reachable env unlocking locking p) :
    p.done ++ (p.next? env).toList <+: p.scripts.flatten := by
  cases hr : p.settle env with
  | error e =>
    rw [next?, hr]
    exact (List.append_nil _).symm ▸ done_isPrefix p
  | ok r =>
    obtain ⟨s, hs, hknows⟩ := h.exists_knows
    have hscripts : r.scripts = p.scripts :=
      hknows.scripts_of_settle (Spend.prepare_eq_ok_iff.1 hs) h.offset_of_exhausted hr
    rw [next?_of_settle hr, ← (done_of_settle hr).1, ← hscripts]
    cases hi : r.program[r.offset]? with
    | none => exact (List.append_nil _).symm ▸ done_isPrefix r
    | some i => exact done_succ hi r.frame ▸ done_isPrefix _

end Loaded

/-- Every run ends, after one step for each instruction of its scripts and one more at most. It
hands the instructions over in their order and each once, all of them if it comes to its end. At
most one script joins, and it is the redeem script. -/
theorem exists_traverses_of_start (h : start env unlocking locking = .ok p) :
    ∃ u l loaded, Program.ofScript unlocking = .ok u ∧ Program.ofScript locking = .ok l ∧
      p.scripts = [u, l] ∧
      (∀ r ∈ loaded, ∃ redeem, Script.Runs env unlocking locking 2 redeem ∧
        Program.ofScript redeem = .ok r) ∧
      p.Traverses env loaded := by
  have hstart : Reachable env unlocking locking p := .start h
  have hlast : Reachable env unlocking locking (p.last env) :=
    hstart.of_mem_states _ (last_mem_states p)
  obtain ⟨s, hs, hknows⟩ := hlast.exists_knows
  have hprepared : s.Prepared env unlocking locking := Spend.prepare_eq_ok_iff.1 hs
  have hp : p = ⟨.start [], [s.unlocking, s.locking], 0, 0, s.p2sh, []⟩ := by
    rw [start, hs] at h
    exact (Except.ok.inj h).symm
  have hscripts : p.scripts = [s.unlocking, s.locking] := by rw [hp]
  have hdone : p.done = [] := by
    rw [hp]
    rfl
  refine ⟨s.unlocking, s.locking, ?_⟩
  obtain hall | ⟨-, hp2sh, x, rest, redeem, hrun, hredeem, hall⟩ := hknows.scripts
  · refine ⟨[], hprepared.unlocking_eq, hprepared.locking_eq, hscripts, List.forall_mem_nil _, ?_⟩
    refine traverses_of_last hstart hdone (Nat.zero_le 1) ?_ hlast.done_append_next?_isPrefix
    rw [hall, hscripts, List.append_nil]
  · refine ⟨[redeem], hprepared.unlocking_eq, hprepared.locking_eq, hscripts, ?_, ?_⟩
    · exact List.forall_mem_singleton.2 ⟨⟨x⟩, hprepared.runs_redeem hp2sh hrun, hredeem⟩
    · refine traverses_of_last hstart hdone (Nat.le_refl 1) ?_ hlast.done_append_next?_isPrefix
      rw [hall, hscripts]
      rfl

theorem exists_traverses_of_start_p2sh :
    let env : Environment := { flags := .p2sh }
    let unlocking : Script := ⟨[1, 0x51]⟩
    let locking : Script := Lock.p2sh ⟨[0x51]⟩
    ∃ p, start env unlocking locking = .ok p ∧ p.p2sh ∧
      ∃ u l loaded, Program.ofScript unlocking = .ok u ∧ Program.ofScript locking = .ok l ∧
        p.scripts = [u, l] ∧
        (∀ r ∈ loaded, ∃ redeem, Script.Runs env unlocking locking 2 redeem ∧
          Program.ofScript redeem = .ok r) ∧
        p.Traverses env loaded := by
  intro env unlocking locking
  let p : Progress :=
    ⟨.start [], [[⟨1, [0x51]⟩], Lock.p2shProgram ⟨[0x51]⟩], 0, 0, true, []⟩
  have h : start env unlocking locking = .ok p :=
    Fallible.toOption_eq_some.1 (by decide +kernel)
  exact ⟨p, h, rfl, exists_traverses_of_start h⟩

end Progress

end BitcoinCash
