import BitcoinCash.Machine.Number

namespace BitcoinCash

abbrev Stack := List Bytes

namespace Stack

def underflow {α : Type} (needed depth : Nat) : Run α :=
  reject (.stackUnderflow (min needed 0xffffffffffffffff) depth)

def pop : Stack → Run (Bytes × Stack)
  | [] => underflow 1 0
  | x :: s => .ok (x, s)

/-- Takes off the top and reads it as a number; it is gone even if it cannot be read. -/
def popNumber (rule : NumberRule) : Stack → Run Int × Stack
  | [] => (underflow 1 0, [])
  | x :: s => (Number.decode rule x, s)

def popBool (s : Stack) : Run (Bool × Stack) := do
  let (x, s) ← s.pop
  return (isTrue x, s)

def takeNumber (rule : NumberRule) (s : Stack) : Run (Int × Stack) := do
  let (n, s) := s.popNumber rule
  return (← n, s)

def peek (s : Stack) (depth : Nat) : Run Bytes :=
  match s[depth]? with
  | some x => .ok x
  | none => underflow (depth + 1) s.length

def peekNumber (rule : NumberRule) (s : Stack) (depth : Nat) : Run Int := do
  Number.decode rule (← s.peek depth)

def peekBool (s : Stack) (depth : Nat) : Run Bool := do
  return isTrue (← s.peek depth)

def need (s : Stack) (n : Nat) : Run Unit :=
  if n ≤ s.length then .ok () else underflow n s.length

def removeAt (s : Stack) (depth : Nat) : Run Stack := do
  s.need (depth + 1)
  return s.eraseIdx depth

def dropTop (s : Stack) (n : Nat) : Run Stack := do
  s.need n
  return s.drop n

def dupTop (s : Stack) (n : Nat) : Run Stack := do
  s.need n
  let (top, _) ← Checked.splitAt s n
  return top ++ s

def copyBelow (s : Stack) (n : Nat) : Run Stack := do
  s.need (2 * n)
  let (_, below) ← Checked.splitAt s n
  let (second, _) ← Checked.splitAt below n
  return second ++ s

/-- Moves the third group of `n` to the top. -/
def rotate (s : Stack) (n : Nat) : Run Stack := do
  s.need (3 * n)
  let (top, below) ← Checked.splitAt s (2 * n)
  let (third, rest) ← Checked.splitAt below n
  return third ++ top ++ rest

def swapPairs (s : Stack) (n : Nat) : Run Stack := do
  s.need (2 * n)
  let (top, below) ← Checked.splitAt s n
  let (second, rest) ← Checked.splitAt below n
  return second ++ top ++ rest

def tuck : Stack → Run Stack
  | x :: y :: s => .ok (x :: y :: x :: s)
  | s => underflow 2 s.length

def pick (s : Stack) (depth : Nat) : Run Stack := do
  return (← s.peek depth) :: s

def roll (s : Stack) (depth : Nat) : Run Stack := do
  return (← s.peek depth) :: s.eraseIdx depth

end Stack

end BitcoinCash
