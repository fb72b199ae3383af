import BitcoinCash.Machine.Execute

namespace BitcoinCash

structure Spend where
  unlocking : Program
  locking : Program
  /-- A redeem script is to be run. -/
  p2sh : Bool
  deriving DecidableEq, Repr

namespace Spend

def acceptScript (env : Environment) (role : ScriptRole) (s : Script) : Run Unit :=
  require (s.length ≤ env.limits.scriptSize) (.scriptSize role s.length env.limits.scriptSize)

def prepare (env : Environment) (unlocking locking : Script) : Run Spend := do
  require (¬ env.has .cleanStack ∨ env.has .p2sh) .cleanStackWithoutP2sh
  acceptScript env .unlocking unlocking
  acceptScript env .locking locking
  let u ← Program.ofScript unlocking
  let l ← Program.ofScript locking
  require (¬ env.has .pushOnly ∨ u.isPushOnly) .notPushOnly
  let p2sh := env.has .p2sh && locking.isP2sh
  require (¬ p2sh ∨ u.isPushOnly) .p2shNotPushOnly
  return ⟨u, l, p2sh⟩

end Spend

/-- Performs the instructions `rest` of `program`, of which the first has the given offset. -/
def Program.runFrom (env : Environment) (program : Program) :
    (offset : Nat) → (rest : Program) → Frame → Run Frame
  | _, [], f => .ok f
  | offset, i :: rest, f => do
    let f ← i.perform env ⟨program, offset⟩ f
    runFrom env program (offset + 1) rest f

def Frame.checkClosed (f : Frame) : Run Unit :=
  require f.branches.isEmpty .openConditional

/-- Runs a script on a stack; only the data stack outlives it. -/
def Program.run (env : Environment) (program : Program) (data : Stack) : Run Stack := do
  let f ← program.runFrom env 0 program (.start data)
  f.checkClosed
  return f.data

namespace Stack

def checkResult : Stack → Run Unit
  | [] => reject .emptyStack
  | x :: _ => require (isTrue x) .falseResult

def checkClean (env : Environment) (s : Stack) : Run Unit :=
  require (¬ env.has .cleanStack ∨ s.length = 1) (.uncleanStack (s.length - 1))

/-- The redeem script on top of the stack that the unlocking script has left, and the stack
without it. -/
def takeRedeem (env : Environment) : Stack → Run (Program × Stack)
  | [] => reject .noRedeemScript
  | x :: s => do
    Spend.acceptScript env .redeem ⟨x⟩
    return (← Program.ofScript ⟨x⟩, s)

end Stack

/-- The spend of an output under `locking` by `unlocking` is authorized. -/
def evaluate (env : Environment) (unlocking locking : Script) : Run Unit := do
  let spend ← Spend.prepare env unlocking locking
  let saved ← spend.unlocking.run env []
  let left ← spend.locking.run env saved
  left.checkResult
  let left ← if spend.p2sh then do
      let (redeem, rest) ← Stack.takeRedeem env saved
      let left ← redeem.run env rest
      left.checkResult
      pure left
    else pure left
  left.checkClean env

def verifies (env : Environment) (unlocking locking : Script) : Bool :=
  (evaluate env unlocking locking).isOk

end BitcoinCash
