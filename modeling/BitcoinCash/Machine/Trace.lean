import BitcoinCash.Machine.Progress

namespace BitcoinCash

namespace Progress

/-- What is left to do: a redeem script may still join, scripts may follow the running one, and
it has instructions left. -/
def remaining (p : Progress) : Nat × Nat × Nat :=
  (2 - p.script, p.scripts.length - p.script, p.program.length - p.offset)

def Ahead (u p : Progress) : Prop :=
  Prod.Lex (· < ·) (Prod.Lex (· < ·) (· < ·)) u.remaining p.remaining

theorem ahead_iff {u p : Progress} : Ahead u p ↔
    2 - u.script < 2 - p.script ∨ 2 - u.script = 2 - p.script ∧
      (u.scripts.length - u.script < p.scripts.length - p.script ∨
        u.scripts.length - u.script = p.scripts.length - p.script ∧
          u.program.length - u.offset < p.program.length - p.offset) := by
  simp [Ahead, remaining, Prod.lex_def]

theorem Ahead.trans {u p s : Progress} (h : Ahead u p) (k : Ahead p s) : Ahead u s := by
  simp only [Ahead, Prod.lex_def] at *
  generalize u.remaining = x, p.remaining = y, s.remaining = z at *
  omega

theorem script_of_finish {env : Environment} {p u : Progress} (h : p.finish env = .ok u) :
    u.script = p.script + 1 ∧ (p.script ≠ 1 → u.scripts = p.scripts) := by
  simp only [finish, bind, Except.bind, pure, Except.pure] at h
  repeat' split at h
  all_goals cases h
  all_goals simp_all [advance]

theorem ahead_of_finish {env : Environment} {p u : Progress} (hf : p.finished = false)
    (h : p.finish env = .ok u) : Ahead u p := by
  have hf : p.script < p.scripts.length := by simpa [finished] using hf
  have ⟨hs, hl⟩ := script_of_finish h
  rw [ahead_iff]
  by_cases h1 : p.script = 1
  · omega
  · rw [hl h1]
    omega

theorem ahead_of_finishExhausted {env : Environment} {p u : Progress}
    (h : p.finishExhausted env = .ok u) : u = p ∧ p.exhausted = false ∨ Ahead u p := by
  unfold finishExhausted at h
  split at h
  next hx =>
    simp only [exhausted, Bool.and_eq_true, Bool.not_eq_true'] at hx
    exact .inr (ahead_of_finish hx.1 h)
  next hx =>
    cases h
    exact .inl ⟨rfl, by simpa using hx⟩

theorem ahead_of_settle {env : Environment} {p u : Progress} (h : p.settle env = .ok u) :
    u = p ∧ p.exhausted = false ∨ Ahead u p := by
  simp only [settle, bind, Except.bind] at h
  split at h
  · cases h
  next v hv =>
    split at h
    · cases h
    next w hw =>
      have := ahead_of_finishExhausted hv
      have := ahead_of_finishExhausted hw
      have := ahead_of_finishExhausted h
      grind [Ahead.trans]

theorem item_scripts {p : Progress} (h : p.finished = false) :
    Checked.item p.scripts p.script = .ok p.program := by
  have hlt : p.script < p.scripts.length := by simpa [finished] using h
  simp [Checked.item, program, hlt]

theorem ahead_of_stepBy {perform : Place → Instruction → Frame → Run Frame} {env : Environment}
    {p u : Progress} (hf : p.finished = false) (h : p.stepBy perform env = .ok u) : Ahead u p := by
  simp only [stepBy, bind, Except.bind] at h
  split at h
  · cases h
  next v hv =>
    split at h
    next hd =>
      cases h
      refine (ahead_of_settle hv).resolve_left fun ⟨he, _⟩ ↦ ?_
      rw [he, hf] at hd
      cases hd
    next hd =>
      rw [item_scripts (by simpa using hd)] at h
      simp only [Checked.item] at h
      split at h
      · cases h
      next i hi =>
        split at h
        · cases h
        next f hp =>
          have hv := ahead_of_settle hv
          have hu := ahead_of_finishExhausted h
          have : Ahead { v with frame := f, offset := v.offset + 1 } v := by
            rw [ahead_iff]
            split at hi
            next x hx =>
              have := List.getElem?_eq_some_iff.1 hx
              simp only [program] at *
              grind
            · cases hi
          grind [Ahead.trans]

theorem ahead_of_step {env : Environment} {p u : Progress} (hf : p.finished = false)
    (h : p.step env = .ok u) : Ahead u p :=
  ahead_of_stepBy hf h

/-- The run to its end: how far it is after each step, and the outcome. -/
def trace (env : Environment) (p : Progress) : List Progress × Run Unit :=
  if hf : p.finished then ([], p.conclude env)
  else
    match h : p.step env with
    | .error e => ([], .error e)
    | .ok u =>
      have : Ahead u p := ahead_of_step (by simpa using hf) h
      let (us, outcome) := trace env u
      (u :: us, outcome)
termination_by p.remaining
decreasing_by assumption

end Progress

end BitcoinCash
