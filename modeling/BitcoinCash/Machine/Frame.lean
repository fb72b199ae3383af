import BitcoinCash.Machine.Limits
import BitcoinCash.Machine.Operation
import BitcoinCash.Machine.Stack

namespace BitcoinCash

/-- The spending transaction as a script can ask about it. -/
structure Context where
  /-- Whether a signature, with the type byte at its end, is valid for a key over a script code. -/
  verify : (signature key : Bytes) → (code : Script) → (input : Nat) → Flags → Except Rejection Bool
  lockTime : UInt32
  version : UInt32
  sequence : (input : Nat) → UInt32

structure Environment where
  flags : Flags
  limits : Limits := {}
  context : Option Context := none
  input : Nat := 0

namespace Environment

def has (env : Environment) (f : Flags) : Bool := env.flags.has f

def numbers (env : Environment) : NumberRule := ⟨env.limits.numberLength, env.has .minimalData⟩

def lockTimes (env : Environment) : NumberRule :=
  ⟨env.limits.lockTimeLength, env.has .minimalData⟩

end Environment

structure Place where
  program : Program
  offset : Nat
  deriving DecidableEq, Repr

structure Frame where
  data : Stack
  alt : Stack
  /-- One entry for each open conditional, the innermost first: whether its branch is run. -/
  branches : List Bool
  opCount : Nat
  codeStart : Nat
  deriving DecidableEq, Repr

namespace Frame

def start (data : Stack) : Frame := ⟨data, [], [], 0, 0⟩

def running (f : Frame) : Bool := f.branches.all id

def withData (f : Frame) (data : Stack) : Frame := { f with data }

def push (f : Frame) (x : Bytes) : Frame := f.withData (x :: f.data)

def size (f : Frame) : Nat := f.data.length + f.alt.length

def verifyTop (f : Frame) (op : VerifyOp) : Run Frame := do
  let (v, data) ← f.data.popBool
  require v (.failedVerify op)
  return f.withData data

/-- Leaves the outcome of a check, or takes it off again as one that has to be true. -/
def settle (f : Frame) (o : Outcome) (op : VerifyOp) : Run Frame :=
  match o with
  | .kept => .ok f
  | .verified => f.verifyTop op

end Frame

end BitcoinCash
