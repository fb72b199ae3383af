import BitcoinCash.Ecdsa.Verify
import BitcoinCash.Machine.Encoding
import BitcoinCash.Machine.Frame
import BitcoinCash.Signature.Der

namespace BitcoinCash

open Encoding (checkSignature checkKey checkBareSignature forkIdBit)

structure Question where
  signature : Bytes
  key : Bytes
  code : Script
  deriving DecidableEq, Repr

namespace Environment

def usesForkId (env : Environment) (sig : Bytes) : Bool :=
  env.has .forkId && sig.getLast?.any fun t ↦ t &&& forkIdBit ≠ 0

def scriptStep (e : Except ScriptError Script) : Run Script :=
  match e with
  | .ok s => .ok s
  | .error e => reject (.scriptCode e)

/-- The script code for one signature: without pushes of the signature and without code
separators, unless the replay-protected digest is used. -/
def codeFor (env : Environment) (base : Script) (sig : Bytes) : Run Script := do
  if env.usesForkId sig then return base
  let s ← scriptStep (base.removePushes sig)
  scriptStep s.removeCodeSeparators

/-- The answer of the context; a failure to answer counts as a failed check. -/
def ask (env : Environment) (q : Question) : Run Bool :=
  match env.context with
  | none => reject .noContextForSignature
  | some ctx =>
    match ctx.verify q.signature q.key q.code env.input env.flags with
    | .ok valid => .ok valid
    | .error _ => .ok false

end Environment

namespace Place

def code (here : Place) (f : Frame) : Run Script :=
  if f.codeStart ≤ here.program.length then Program.toScript (here.program.drop f.codeStart)
  else .error (.fault .outOfRange)

end Place

namespace SignatureCheck

/-- What the check of one signature on the stack asks; nothing if the signature is empty. -/
def question (env : Environment) (here : Place) (f : Frame) : Run (Bytes × Option Question) := do
  let key ← f.data.peek 0
  let sig ← f.data.peek 1
  checkSignature env.flags sig
  checkKey env.flags key
  if sig.isEmpty then return (sig, none)
  return (sig, some ⟨sig, key, ← env.codeFor (← here.code f) sig⟩)

def checkOne (env : Environment) (here : Place) (f : Frame) : Run Frame := do
  let (sig, q?) ← question env here f
  let valid ← match q? with
    | some q => env.ask q
    | none => pure false
  require (valid ∨ ¬ env.has .nullFail ∨ sig.isEmpty) .checkSigNotNull
  return f.withData (ofBool valid :: (← f.data.dropTop 2))

/-- What a check of several signatures reads from the stack: keys and signatures from the top
down, and the script code without the signatures it must not hold. -/
structure Ballot where
  keys : List Bytes
  signatures : List Bytes
  base : Script
  deriving DecidableEq, Repr

def peekRange (s : Stack) (depth : Nat) : Nat → Run (List Bytes)
  | 0 => .ok []
  | n + 1 => do
    let x ← s.peek depth
    let xs ← peekRange s (depth + 1) n
    return x :: xs

def stripAll (env : Environment) : Script → List Bytes → Run Script
  | code, [] => .ok code
  | code, sig :: sigs => do
    let code ← if env.usesForkId sig then pure code else
      Environment.scriptStep (code.removePushes sig)
    stripAll env code sigs

/-- Reads a ballot; every key counts as an operation. -/
def ballot (env : Environment) (here : Place) (f : Frame) : Run (Ballot × Frame) := do
  let n ← f.data.peekNumber env.numbers 0
  require (0 ≤ n ∧ n ≤ env.limits.publicKeys) (.keyCount n env.limits.publicKeys)
  let f := { f with opCount := f.opCount + n.toNat }
  require (f.opCount ≤ env.limits.ops) (.opCount env.limits.ops)
  let m ← f.data.peekNumber env.numbers (1 + n.toNat)
  require (0 ≤ m ∧ m ≤ n) (.signatureCount m n.toNat)
  let keys ← peekRange f.data 1 n.toNat
  let signatures ← peekRange f.data (2 + n.toNat) m.toNat
  let base ← stripAll env (← here.code f) signatures
  return (⟨keys, signatures, base⟩, f)

/-- One signature against one key; the context is asked unless the signature is empty. -/
def attempt (env : Environment) (base : Script) (sig key : Bytes) : Run Bool := do
  checkSignature env.flags sig
  checkKey env.flags key
  if sig.isEmpty then return false
  env.ask ⟨sig, key, ← env.codeFor base sig⟩

/-- Tries the first signature left on each key in turn. Fails once more signatures are left than
keys. An attempt is told how many keys are left behind its own. -/
def matchKeysBy (attempt : Nat → (sig key : Bytes) → Run Bool) :
    (keys signatures : List Bytes) → Run Bool
  | _, [] => .ok true
  | [], _ :: _ => .error (.fault .outOfRange)
  | key :: keys, sig :: sigs => do
    let valid ← attempt keys.length sig key
    let left := if valid then sigs else sig :: sigs
    if keys.length < left.length then return false
    matchKeysBy attempt keys left

def matchKeys (env : Environment) (base : Script) (keys signatures : List Bytes) : Run Bool :=
  matchKeysBy (fun _ ↦ attempt env base) keys signatures

def checkManyBy (isValid : Ballot → Run Bool) (env : Environment) (here : Place) (f : Frame) :
    Run Frame := do
  let (b, f) ← ballot env here f
  let valid ← isValid b
  require (valid ∨ ¬ env.has .nullFail ∨ b.signatures.all List.isEmpty) .checkMultiSigNotNull
  let data ← f.data.dropTop (2 + b.keys.length + b.signatures.length)
  let (dummy, data) ← Stack.pop data
  require (¬ env.has .nullDummy ∨ dummy.isEmpty) (.dummyLength dummy.length)
  return f.withData (ofBool valid :: data)

def checkMany (env : Environment) (here : Place) (f : Frame) : Run Frame :=
  checkManyBy (fun b ↦ matchKeys env b.base b.keys b.signatures) env here f

theorem matchKeys_cons {env : Environment} {base : Script} {key sig : Bytes}
    {keys sigs : List Bytes} :
    matchKeys env base (key :: keys) (sig :: sigs) = (do
      let valid ← attempt env base sig key
      let left := if valid then sigs else sig :: sigs
      if keys.length < left.length then return false
      matchKeys env base keys left) :=
  rfl

theorem checkMany_eq {env : Environment} {here : Place} {f : Frame} :
    checkMany env here f = (do
      let (b, f) ← ballot env here f
      let valid ← matchKeys env b.base b.keys b.signatures
      require (valid ∨ ¬ env.has .nullFail ∨ b.signatures.all List.isEmpty) .checkMultiSigNotNull
      let data ← f.data.dropTop (2 + b.keys.length + b.signatures.length)
      let (dummy, data) ← Stack.pop data
      require (¬ env.has .nullDummy ∨ dummy.isEmpty) (.dummyLength dummy.length)
      return f.withData (ofBool valid :: data)) :=
  rfl

def readBodies (b : Bytes) : Run (Except DerFlaw (Bytes × Bytes)) := do
  if b.length < 8 then return .error .tooShort
  if (← Checked.item b 0) ≠ 0x30 then return .error .noHeader
  let length := (← Checked.item b 1).toNat + 2
  if b.length < length ∨ length < 8 then return .error .badLength
  let b ← Checked.slice b 0 length
  if (← Checked.item b 2) ≠ 0x02 then return .error .noFirstMarker
  let r := (← Checked.item b 3).toNat
  if r = 0 ∨ (← Checked.minus length 3) < 4 + r then return .error .badRLength
  let rBody ← Checked.slice b 4 r
  if (← Checked.item b (4 + r)) ≠ 0x02 then return .error .noSecondMarker
  let s := (← Checked.item b (5 + r)).toNat
  if s = 0 ∨ length < 6 + r + s then return .error .badSLength
  let sBody ← Checked.slice b (6 + r) s
  if (← Checked.item rBody 0) &&& 0x80 ≠ 0 ∨ (← Checked.item sBody 0) &&& 0x80 ≠ 0 then
    return .error .negative
  return .ok (rBody, sBody)

/-- A signature or a key that cannot be read fails its check. -/
def verifyMessage (sig message key : Bytes) : Run Bool := do
  if sig.isEmpty then return false
  let .ok (r, s) ← readBodies sig | return false
  match Signature.ofComponents r s, PublicKey.ofBytes key with
  | .ok sig, .ok key => return Ecdsa.accepts (sha256 message) sig key
  | _, _ => return false

def checkMessage (env : Environment) (f : Frame) : Run Frame := do
  let key ← f.data.peek 0
  let message ← f.data.peek 1
  let sig ← f.data.peek 2
  checkBareSignature env.flags sig
  checkKey env.flags key
  let valid ← verifyMessage sig message key
  require (valid ∨ ¬ env.has .nullFail ∨ sig.isEmpty) .checkDataSigNotNull
  return f.withData (ofBool valid :: (← f.data.dropTop 3))

end SignatureCheck

end BitcoinCash
