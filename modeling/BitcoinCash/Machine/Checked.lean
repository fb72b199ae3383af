import BitcoinCash.Machine.Halt

namespace BitcoinCash.Checked

variable {α : Type}

def item (xs : List α) (i : Nat) : Run α :=
  match xs[i]? with
  | some x => .ok x
  | none => .error (.fault .outOfRange)

def put (xs : List α) (i : Nat) (x : α) : Run (List α) :=
  if i < xs.length then .ok (xs.set i x) else .error (.fault .outOfRange)

def splitAt (xs : List α) (n : Nat) : Run (List α × List α) :=
  if n ≤ xs.length then .ok (xs.take n, xs.drop n) else .error (.fault .outOfRange)

def slice (xs : List α) (i n : Nat) : Run (List α) :=
  if i + n ≤ xs.length then .ok ((xs.drop i).take n) else .error (.fault .outOfRange)

def minus (a b : Nat) : Run Nat :=
  if b ≤ a then .ok (a - b) else .error (.fault .underflow)

end BitcoinCash.Checked
