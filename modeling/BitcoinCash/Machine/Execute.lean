import BitcoinCash.Digest.Sha1
import BitcoinCash.Machine.LockTime
import BitcoinCash.Machine.SignatureCheck

namespace BitcoinCash

def DigestKind.apply : DigestKind → Bytes → Bytes
  | .ripemd160 => BitcoinCash.ripemd160
  | .sha1 => BitcoinCash.sha1
  | .sha256 => BitcoinCash.sha256
  | .hash160 => BitcoinCash.hash160
  | .sha256d => BitcoinCash.sha256d

namespace Splice

def cat (env : Environment) (s : Stack) : Run Stack := do
  let (b, s) ← s.pop
  let (a, s) ← s.pop
  let size := a.length + b.length
  require (size ≤ env.limits.elementSize) (.concatenationSize size env.limits.elementSize)
  return (a ++ b) :: s

def split (env : Environment) (s : Stack) : Run Stack := do
  let (n, s) ← s.takeNumber env.numbers
  let (x, s) ← Stack.pop s
  require (0 ≤ n ∧ n ≤ x.length) (.splitPosition n x.length)
  let (low, high) ← Checked.splitAt x n.toNat
  return high :: low :: s

/-- A shortest encoding drawn out to `size` bytes, which are at least as many; the sign moves to
the last. -/
def widen (b : Bytes) (size : Nat) : Run Bytes := do
  if b.length = size then return b
  let rest ← Checked.minus size 1
  match b.getLast? with
  | none => return List.replicate rest 0 ++ [0]
  | some last =>
    return b.dropLast ++ (last &&& 0x7f) :: List.replicate (rest - b.length) 0 ++ [last &&& 0x80]

def toBinary (env : Environment) (s : Stack) : Run Stack := do
  let (n, s) ← s.takeNumber env.numbers
  require (0 ≤ n ∧ n ≤ env.limits.elementSize) (.requestedSize n env.limits.elementSize)
  let (x, s) ← Stack.pop s
  let b ← Number.trim x
  require (b.length ≤ n.toNat) (.encodingSize b.length n.toNat)
  return (← widen b n.toNat) :: s

def toNumber (env : Environment) (s : Stack) : Run Stack := do
  let (x, s) ← s.pop
  let b ← Number.trim x
  require (b.length ≤ env.limits.numberLength) (.binaryNumberLength env.limits.numberLength)
  return b :: s

def bitwise (f : Bitwise) (s : Stack) : Run Stack := do
  let (b, s) ← s.pop
  let (a, s) ← s.pop
  require (a.length = b.length) (.operandSizes a.length b.length)
  return a.zipWith f.apply b :: s

def equal (s : Stack) : Run Stack := do
  let (b, s) ← s.pop
  let (a, s) ← s.pop
  return ofBool (a == b) :: s

end Splice

namespace Arithmetic

def unary (rule : NumberRule) (f : Unary) (s : Stack) : Run Stack := do
  let (a, s) ← s.takeNumber rule
  return (← Number.write (← Number.fit (f.apply a))) :: s

def binary (rule : NumberRule) (f : Binary) (s : Stack) : Run Stack := do
  let (b, s) ← s.takeNumber rule
  let (a, s) ← s.takeNumber rule
  return (← Number.write (← Number.fit (f.apply a b))) :: s

def relation (rule : NumberRule) (r : Relation) (s : Stack) : Run Stack := do
  let (b, s) ← s.takeNumber rule
  let (a, s) ← s.takeNumber rule
  return ofBool (r.holds a b) :: s

def divide (rule : NumberRule) (s : Stack) : Run Stack := do
  let (b, s) ← s.takeNumber rule
  let (a, s) ← s.takeNumber rule
  require (b ≠ 0) .divideByZero
  return (← Number.write (← Number.quotient a b)) :: s

def remainder (rule : NumberRule) (s : Stack) : Run Stack := do
  let (b, s) ← s.takeNumber rule
  let (a, s) ← s.takeNumber rule
  require (b ≠ 0) .remainderByZero
  return (← Number.write (← Number.remainder a b)) :: s

def within (rule : NumberRule) (s : Stack) : Run Stack := do
  let (high, s) ← s.takeNumber rule
  let (low, s) ← s.takeNumber rule
  let (x, s) ← s.takeNumber rule
  return ofBool (low ≤ x && x < high) :: s

def takeDepth (rule : NumberRule) (s : Stack) : Run (Nat × Stack) := do
  let (n, s) ← s.takeNumber rule
  require (0 ≤ n) (.negativeIndex n)
  return (n.toNat, s)

end Arithmetic

namespace Frame

def openBranch (f : Frame) (negated : Bool) : Run Frame :=
  if f.running then do
    let (v, data) ← f.data.popBool
    return { f with data, branches := (v != negated) :: f.branches }
  else .ok { f with branches := false :: f.branches }

def turnBranch (f : Frame) (op : Opcode) : Run Frame :=
  match f.branches with
  | b :: bs => .ok { f with branches := (!b) :: bs }
  | [] => reject (.unmatchedConditional op)

def closeBranch (f : Frame) (op : Opcode) : Run Frame :=
  match f.branches with
  | _ :: bs => .ok { f with branches := bs }
  | [] => reject (.unmatchedConditional op)

def toAlt (f : Frame) : Run Frame := do
  let (x, data) ← f.data.pop
  return { f with data, alt := x :: f.alt }

def fromAlt (f : Frame) : Run Frame := do
  let (x, alt) ← f.alt.pop
  return { f with data := x :: f.data, alt }

def onData (f : Frame) (g : Stack → Run Stack) : Run Frame := do
  return f.withData (← g f.data)

end Frame

def Operation.run (env : Environment) (here : Place) (i : Instruction) (f : Frame) :
    Operation → Run Frame
  | .pushData => .ok (f.push i.data)
  | .pushNumber n => .ok (f.push (Number.encode n))
  | .nop => .ok f
  | .branch negated => f.openBranch negated
  | .otherwise => f.turnBranch i.op
  | .endBranch => f.closeBranch i.op
  | .verify => f.verifyTop .verify
  | .returnEarly => reject .earlyReturn
  | .checkLockTime => do LockTime.checkLockTime env f.data; return f
  | .checkSequence => do LockTime.checkSequence env f.data; return f
  | .toAlt => f.toAlt
  | .fromAlt => f.fromAlt
  | .drop n => f.onData (Stack.dropTop · n)
  | .dup n => f.onData (Stack.dupTop · n)
  | .copyBelow n => f.onData (Stack.copyBelow · n)
  | .rotate n => f.onData (Stack.rotate · n)
  | .swap n => f.onData (Stack.swapPairs · n)
  | .dupIfTrue => do
    let x ← f.data.peek 0
    return if isTrue x then f.push x else f
  | .depth => do return f.push (← Number.write f.data.length)
  | .nip => f.onData (Stack.removeAt · 1)
  | .pick => do
    let (n, s) ← Arithmetic.takeDepth env.numbers f.data
    return f.withData (← Stack.pick s n)
  | .roll => do
    let (n, s) ← Arithmetic.takeDepth env.numbers f.data
    return f.withData (← Stack.roll s n)
  | .tuck => f.onData Stack.tuck
  | .cat => f.onData (Splice.cat env)
  | .split => f.onData (Splice.split env)
  | .toBinary => f.onData (Splice.toBinary env)
  | .toNumber => f.onData (Splice.toNumber env)
  | .size => do
    let x ← f.data.peek 0
    return f.push (← Number.write x.length)
  | .bitwise g => f.onData (Splice.bitwise g)
  | .equal o => do (← f.onData Splice.equal).settle o .equal
  | .unary g => f.onData (Arithmetic.unary env.numbers g)
  | .binary g => f.onData (Arithmetic.binary env.numbers g)
  | .relation r o => do (← f.onData (Arithmetic.relation env.numbers r)).settle o .numEqual
  | .divide => f.onData (Arithmetic.divide env.numbers)
  | .remainder => f.onData (Arithmetic.remainder env.numbers)
  | .within => f.onData (Arithmetic.within env.numbers)
  | .digest k => do
    let (x, s) ← f.data.pop
    return f.withData (k.apply x :: s)
  | .codeSeparator => .ok { f with codeStart := here.offset + 1 }
  | .checkSig o => do (← SignatureCheck.checkOne env here f).settle o .checkSig
  | .checkMultiSig o => do (← SignatureCheck.checkMany env here f).settle o .checkMultiSig
  | .checkDataSig o =>
    if env.has .checkDataSig then do (← SignatureCheck.checkMessage env f).settle o .checkDataSig
    else reject (.invalidOpcode i.op)
  | .upgradableNop => do LockTime.upgradable env i.op; return f
  | .invalid => reject (.invalidOpcode i.op)

namespace Instruction

/-- What is checked of every instruction, run or not; gives the frame with the operation
counted. -/
def accept (env : Environment) (i : Instruction) (f : Frame) : Run Frame := do
  require (i.data.length ≤ env.limits.elementSize)
    (.elementSize i.data.length env.limits.elementSize)
  let f := if i.isCounted then { f with opCount := f.opCount + 1 } else f
  require (¬ i.isCounted ∨ f.opCount ≤ env.limits.ops) (.opCount env.limits.ops)
  require (¬ i.isDisabled env.flags) (.disabledOpcode i.op)
  return f

/-- In a branch that is not run only conditionals have an effect. -/
def executeBy (run : Operation → Frame → Run Frame) (env : Environment) (i : Instruction)
    (f : Frame) : Run Frame := do
  let f ← i.accept env f
  if !f.running && !i.isConditional then return f
  if f.running && i.isPush && env.has .minimalData then i.checkShortest
  run (Operation.ofOpcode i.op) f

/-- Executes an instruction and bounds the stacks it leaves. -/
def performBy (run : Operation → Frame → Run Frame) (env : Environment) (i : Instruction)
    (f : Frame) : Run Frame := do
  let f ← i.executeBy run env f
  require (f.size ≤ env.limits.stackSize) (.stackOverflow f.size env.limits.stackSize)
  return f

def execute (env : Environment) (here : Place) (i : Instruction) (f : Frame) : Run Frame :=
  i.executeBy (fun o f ↦ o.run env here i f) env f

def perform (env : Environment) (here : Place) (i : Instruction) (f : Frame) : Run Frame :=
  i.performBy (fun o f ↦ o.run env here i f) env f

theorem execute_eq {env : Environment} {here : Place} {i : Instruction} {f : Frame} :
    i.execute env here f = (do
      let f ← i.accept env f
      if !f.running && !i.isConditional then return f
      if f.running && i.isPush && env.has .minimalData then i.checkShortest
      (Operation.ofOpcode i.op).run env here i f) :=
  rfl

theorem perform_eq {env : Environment} {here : Place} {i : Instruction} {f : Frame} :
    i.perform env here f = (do
      let f ← i.execute env here f
      require (f.size ≤ env.limits.stackSize) (.stackOverflow f.size env.limits.stackSize)
      return f) :=
  rfl

end Instruction

end BitcoinCash
