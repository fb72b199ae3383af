import BitcoinCash.Machine.Frame

namespace BitcoinCash.LockTime

/-- Lock times from here on are times, and heights below. -/
def threshold : Int := 500000000

def disabledBit : Nat := 31

/-- Says in a sequence number that it counts time; also the bound between the two kinds once
other bits are masked out. -/
def timeBit : Int := 0x400000

def mask : Nat := 0x400000 ||| 0xffff

def compare (transaction bound required : Int) : Run Unit := do
  require ((transaction < bound) ↔ (required < bound)) (.lockTimeKinds transaction required)
  require (required ≤ transaction) (.lockTimeUnreached required transaction)

/-- The value on top of the stack, which stays there. -/
def operand (env : Environment) (s : Stack) : Run Int := do
  let n ← s.peekNumber env.lockTimes 0
  require (0 ≤ n) (.negativeLockTime n)
  return n

def upgradable (env : Environment) (op : Opcode) : Run Unit :=
  require (¬ env.has .discourageUpgradableNops) (.upgradableNop op)

def contextFor (env : Environment) (op : Opcode) : Run Context :=
  match env.context with
  | some ctx => .ok ctx
  | none => reject (.noContextFor op)

def checkLockTime (env : Environment) (s : Stack) : Run Unit := do
  if env.has .checkLockTimeVerify then
    let required ← operand env s
    let ctx ← contextFor env Opcode.checkLockTimeVerify
    compare ctx.lockTime.toNat threshold required
    require (ctx.sequence env.input ≠ 0xffffffff) .finalInput
  else upgradable env Opcode.checkLockTimeVerify

def checkSequence (env : Environment) (s : Stack) : Run Unit := do
  if env.has .checkSequenceVerify then
    let required := (← operand env s).toNat
    if !required.testBit disabledBit then
      let ctx ← contextFor env Opcode.checkSequenceVerify
      require (2 ≤ ctx.version) (.transactionVersion ctx.version.toNat)
      let sequence := (ctx.sequence env.input).toNat
      require (¬ sequence.testBit disabledBit) (.sequenceDisabled sequence)
      compare (sequence &&& mask : Nat) timeBit (required &&& mask : Nat)
  else upgradable env Opcode.checkSequenceVerify

end BitcoinCash.LockTime
