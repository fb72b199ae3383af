import BitcoinCash.Machine.Trace

namespace BitcoinCash

def Environment.at (env : Environment) (contexts : Nat → Option Context) (n : Nat) : Environment :=
  { env with context := contexts n }

namespace SignatureCheck

def matchKeysVarying (envs : Nat → Environment) (base : Script) (keys signatures : List Bytes) :
    Run Bool :=
  matchKeysBy (fun n ↦ attempt (envs n) base) keys signatures

def checkManyVarying (envs : Nat → Environment) (here : Place) (f : Frame) : Run Frame :=
  checkManyBy (fun b ↦ matchKeysVarying envs b.base b.keys b.signatures) (envs 0) here f

end SignatureCheck

/-- Only a check of several signatures asks about more than one. Its questions are numbered by the
keys that are left. -/
def Operation.runVarying (envs : Nat → Environment) (here : Place) (i : Instruction) (f : Frame) :
    Operation → Run Frame
  | .checkMultiSig o => do
    (← SignatureCheck.checkManyVarying envs here f).settle o .checkMultiSig
  | o => o.run (envs 0) here i f

def Instruction.performVarying (envs : Nat → Environment) (here : Place) (i : Instruction)
    (f : Frame) : Run Frame :=
  i.performBy (fun o f ↦ o.runVarying envs here i f) (envs 0) f

namespace Progress

def stepVarying (env : Environment) (contexts : Nat → Option Context) (p : Progress) :
    Run Progress :=
  p.stepBy (Instruction.performVarying (env.at contexts)) env

/-- The outcome of the run from `p` on, if the `n`th step and those behind it ask `contexts n`,
`contexts (n + 1)` and so on. -/
def outcomeVarying (env : Environment) (contexts : Nat → Nat → Option Context) (n : Nat)
    (p : Progress) : Run Unit :=
  if hf : p.finished then p.conclude env
  else
    match h : p.stepVarying env (contexts n) with
    | .error e => .error e
    | .ok u =>
      have : Ahead u p := ahead_of_stepBy (by simpa using hf) h
      outcomeVarying env contexts (n + 1) u
termination_by p.remaining
decreasing_by assumption

end Progress

/-- The spend under a context that need not give one answer to the same question. -/
def evaluateVarying (env : Environment) (contexts : Nat → Nat → Option Context)
    (unlocking locking : Script) : Run Unit := do
  let p ← Progress.start env unlocking locking
  p.outcomeVarying env contexts 0

end BitcoinCash
