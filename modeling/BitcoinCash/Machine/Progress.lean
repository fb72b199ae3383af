import BitcoinCash.Machine.Evaluate

namespace BitcoinCash

structure Progress where
  frame : Frame
  /-- The scripts known so far, in the order in which they run. -/
  scripts : List Program
  /-- The running script; past the last one at the end. -/
  script : Nat
  offset : Nat
  p2sh : Bool
  /-- For the redeem script: the stack that the unlocking script has left. -/
  saved : Stack
  deriving DecidableEq, Repr

namespace Progress

def start (env : Environment) (unlocking locking : Script) : Run Progress := do
  let spend ← Spend.prepare env unlocking locking
  return ⟨.start [], [spend.unlocking, spend.locking], 0, 0, spend.p2sh, []⟩

def program (p : Progress) : Program := p.scripts.getD p.script []

def finished (p : Progress) : Bool := p.scripts.length ≤ p.script

def exhausted (p : Progress) : Bool := !p.finished && p.program.length ≤ p.offset

def advance (p : Progress) (data : Stack) : Progress :=
  { p with frame := .start data, script := p.script + 1, offset := 0 }

/-- The checks at the end of the running script, and the move to the next. -/
def finish (env : Environment) (p : Progress) : Run Progress := do
  p.frame.checkClosed
  let data := p.frame.data
  match p.script with
  | 0 => return { p with saved := if p.p2sh then data else p.saved }.advance data
  | 1 =>
    data.checkResult
    if p.p2sh then
      let (redeem, rest) ← p.saved.takeRedeem env
      return { p with scripts := p.scripts ++ [redeem], saved := [] }.advance rest
    else return p.advance data
  | _ =>
    data.checkResult
    return p.advance data

def finishExhausted (env : Environment) (p : Progress) : Run Progress :=
  if p.exhausted then p.finish env else .ok p

def settle (env : Environment) (p : Progress) : Run Progress := do
  let p ← p.finishExhausted env
  let p ← p.finishExhausted env
  p.finishExhausted env

def stepBy (perform : Place → Instruction → Frame → Run Frame) (env : Environment)
    (p : Progress) : Run Progress := do
  let p ← p.settle env
  if p.finished then return p
  let program ← Checked.item p.scripts p.script
  let i ← Checked.item program p.offset
  let frame ← perform ⟨program, p.offset⟩ i p.frame
  { p with frame, offset := p.offset + 1 }.finishExhausted env

def step (env : Environment) (p : Progress) : Run Progress :=
  p.stepBy (Instruction.perform env) env

def conclude (env : Environment) (p : Progress) : Run Unit :=
  p.frame.data.checkClean env

end Progress

end BitcoinCash
