import BitcoinCash.Machine.Checked

namespace BitcoinCash

structure NumberRule where
  maxLength : Nat
  minimal : Bool
  deriving DecidableEq, Repr

namespace Number

def value (b : Bytes) : Int :=
  match b.getLast? with
  | none => 0
  | some last =>
    if last &&& 0x80 = 0 then Bytes.toNatLE b
    else -(Bytes.toNatLE (b.dropLast ++ [last &&& 0x7f]) : Int)

/-- The shortest encoding. A magnitude that needs the sign's bit gets one more byte. -/
def encode (n : Int) : Bytes :=
  let magnitude := Bytes.digitsLE n.natAbs
  match magnitude.getLast? with
  | none => []
  | some last =>
    if last &&& 0x80 ≠ 0 then magnitude ++ [if n < 0 then 0x80 else 0]
    else if n < 0 then magnitude.dropLast ++ [last ||| 0x80]
    else magnitude

def write (n : Int) : Run Bytes := do
  if n = 0 then return []
  let magnitude := Bytes.digitsLE n.natAbs
  let top ← Checked.minus magnitude.length 1
  let last ← Checked.item magnitude top
  if last &&& 0x80 ≠ 0 then return magnitude ++ [if n < 0 then 0x80 else 0]
  if n < 0 then Checked.put magnitude top (last ||| 0x80) else return magnitude

/-- No byte of `b` is superfluous: its last has more than the sign, or the one before it needs
a byte for the sign. -/
def isMinimal (b : Bytes) : Bool :=
  match b.reverse with
  | [] => true
  | [last] => last &&& 0x7f != 0
  | last :: before :: _ => last &&& 0x7f != 0 || before &&& 0x80 != 0

def checkMinimal (b : Bytes) : Run Unit := do
  if b ≠ [] then
    let last ← Checked.item b (← Checked.minus b.length 1)
    if last &&& 0x7f = 0 then
      require (b.length ≠ 1) (.longNumber b)
      let before ← Checked.item b (← Checked.minus b.length 2)
      require (before &&& 0x80 ≠ 0) (.longNumber b)

def fit (n : Int) : Run Int :=
  if -0x8000000000000000 ≤ n ∧ n < 0x8000000000000000 then .ok n else .error (.fault .overflow)

def gather (w : UInt64) (i : Nat) : Bytes → UInt64
  | [] => w
  | x :: b => gather (w ||| x.toUInt64 <<< UInt64.ofNat (8 * i)) (i + 1) b

def read (b : Bytes) : Run Int :=
  match b.getLast? with
  | none => return 0
  | some last => do
    let magnitude := gather 0 0 b
    if last &&& 0x80 = 0 then return magnitude.toInt64.toInt
    let top ← Checked.minus b.length 1
    let sign : UInt64 := 0x80 <<< UInt64.ofNat (8 * top)
    fit (-(magnitude &&& ~~~sign).toInt64.toInt)

/-- The number of an element that `rule` lets pass; never of more than eight bytes. -/
def decode (rule : NumberRule) (b : Bytes) : Run Int := do
  require (b.length ≤ rule.maxLength ∧ b.length ≤ 8) (.numberLength b rule.maxLength)
  if rule.minimal then checkMinimal b
  read b

/-- Drops superfluous bytes from an element of any length; the sign moves to the last that is
left. -/
def shorten (b : Bytes) : Bytes :=
  match b.getLast? with
  | none => []
  | some last =>
    if last &&& 0x7f ≠ 0 then b
    else
      match b.dropLast.reverse.dropWhile (· = 0) with
      | [] => []
      | x :: rest =>
        if x &&& 0x80 ≠ 0 then (last :: x :: rest).reverse else ((x ||| last) :: rest).reverse

/-- Looks below place `i` for the last byte that is not zero. It takes over the sign from `last`,
or is followed by it. -/
def trimFrom (b : Bytes) (last : UInt8) : (i : Nat) → Run Bytes
  | 0 => .ok []
  | i + 1 => do
    let x ← Checked.item b i
    if x = 0 then trimFrom b last i
    else if x &&& 0x80 ≠ 0 then
      let b ← Checked.put b (i + 1) last
      return (← Checked.splitAt b (i + 2)).1
    else
      let b ← Checked.put b i (x ||| last)
      return (← Checked.splitAt b (i + 1)).1

def trim (b : Bytes) : Run Bytes := do
  if b = [] then return []
  let top ← Checked.minus b.length 1
  let last ← Checked.item b top
  if last &&& 0x7f ≠ 0 then return b
  if b.length = 1 then return []
  let before ← Checked.item b (← Checked.minus b.length 2)
  if before &&& 0x80 ≠ 0 then return b
  trimFrom b last top

def quotient (a b : Int) : Run Int :=
  if b = 0 then .error (.fault .divideByZero) else fit (a.tdiv b)

def remainder (a b : Int) : Run Int := do
  let _ ← quotient a b
  return a.tmod b

end Number

/-- An element counts as true unless all its bytes vanish, the sign apart. -/
def isTrue (b : Bytes) : Bool :=
  match b.getLast? with
  | none => false
  | some last => b.dropLast.any (· != 0) || (last != 0 && last != 0x80)

def ofBool (v : Bool) : Bytes := if v then [1] else []

end BitcoinCash
