import BitcoinCash.Machine.Stack

namespace BitcoinCash

abbrev InPlace := EStateM Halt (List Bytes)

namespace InPlace

def ofRun {α : Type} (r : Run α) : InPlace α :=
  match r with
  | .ok a => pure a
  | .error e => throw e

def times (k n : Nat) : InPlace Nat :=
  if k * n ≤ 0xffffffffffffffff then pure (k * n) else throw (.fault .overflow)

/-- Where the element lies that has `depth` others above it. -/
def position (depth : Nat) : InPlace Nat := do
  let items ← get
  if depth + 1 ≤ items.length then return items.length - (depth + 1)
  else ofRun (Stack.underflow (depth + 1) items.length)

def startOf (n : Nat) : InPlace Nat := do
  let items ← get
  if n ≤ items.length then return items.length - n
  else ofRun (Stack.underflow n items.length)

def item (i : Nat) : InPlace Bytes := do
  ofRun (Checked.item (← get) i)

def push (x : Bytes) : InPlace Unit :=
  modify (· ++ [x])

def truncate (n : Nat) : InPlace Unit :=
  modify (·.take n)

def extend (i n : Nat) : InPlace Unit := do
  let items ← get
  let copies ← ofRun (Checked.slice items i n)
  set (items ++ copies)

def insert (i : Nat) (x : Bytes) : InPlace Unit := do
  let (below, above) ← ofRun (Checked.splitAt (← get) i)
  set (below ++ x :: above)

def remove (i : Nat) : InPlace Bytes := do
  let x ← item i
  modify (·.eraseIdx i)
  return x

def rotateLeft (i n : Nat) : InPlace Unit := do
  let (below, above) ← ofRun (Checked.splitAt (← get) i)
  let (front, back) ← ofRun (Checked.splitAt above n)
  set (below ++ (back ++ front))

def take (depth : Nat) : InPlace Bytes := do
  remove (← position depth)

def removeAt (depth : Nat) : InPlace Unit := do
  let _ ← take depth

def dropTop (n : Nat) : InPlace Unit := do
  truncate (← startOf n)

def dupTop (n : Nat) : InPlace Unit := do
  let start ← startOf n
  extend start ((← get).length - start)

def copyBelow (n : Nat) : InPlace Unit := do
  let start ← startOf (← times 2 n)
  extend start n

def rotate (n : Nat) : InPlace Unit := do
  let start ← startOf (← times 3 n)
  rotateLeft start n

def swapPairs (n : Nat) : InPlace Unit := do
  let start ← startOf (← times 2 n)
  rotateLeft start n

def tuck : InPlace Unit := do
  let start ← startOf 2
  let top ← item (start + 1)
  insert start top

def peek (depth : Nat) : InPlace Bytes := do
  item (← position depth)

def pick (depth : Nat) : InPlace Unit := do
  push (← peek depth)

def roll (depth : Nat) : InPlace Unit := do
  push (← take depth)

end InPlace

end BitcoinCash
