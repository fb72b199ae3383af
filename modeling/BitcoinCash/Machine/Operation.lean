import BitcoinCash.Machine.Instruction

namespace BitcoinCash

inductive Bitwise
  | and
  | or
  | xor
  deriving DecidableEq, Repr

def Bitwise.apply : Bitwise → UInt8 → UInt8 → UInt8
  | .and, a, b => a &&& b
  | .or, a, b => a ||| b
  | .xor, a, b => a ^^^ b

inductive Unary
  | add1
  | sub1
  | negate
  | abs
  | not
  | notZero
  deriving DecidableEq, Repr

def Unary.apply : Unary → Int → Int
  | .add1, a => a + 1
  | .sub1, a => a - 1
  | .negate, a => -a
  | .abs, a => a.natAbs
  | .not, a => if a = 0 then 1 else 0
  | .notZero, a => if a = 0 then 0 else 1

/-- Functions of two numbers, the second of which was pushed last. -/
inductive Binary
  | add
  | sub
  | min
  | max
  deriving DecidableEq, Repr

def Binary.apply : Binary → Int → Int → Int
  | .add, a, b => a + b
  | .sub, a, b => a - b
  | .min, a, b => Min.min a b
  | .max, a, b => Max.max a b

inductive Relation
  | bothNonzero
  | someNonzero
  | eq
  | ne
  | lt
  | gt
  | le
  | ge
  deriving DecidableEq, Repr

def Relation.holds : Relation → Int → Int → Bool
  | .bothNonzero, a, b => a ≠ 0 && b ≠ 0
  | .someNonzero, a, b => a ≠ 0 || b ≠ 0
  | .eq, a, b => a = b
  | .ne, a, b => a ≠ b
  | .lt, a, b => a < b
  | .gt, a, b => a > b
  | .le, a, b => a ≤ b
  | .ge, a, b => a ≥ b

inductive DigestKind
  | ripemd160
  | sha1
  | sha256
  | hash160
  | sha256d
  deriving DecidableEq, Repr

inductive Outcome
  | kept
  | verified
  deriving DecidableEq, Repr

inductive Operation
  | pushData
  | pushNumber (n : Int)
  | nop
  | branch (negated : Bool)
  | otherwise
  | endBranch
  | verify
  | returnEarly
  | checkLockTime
  | checkSequence
  | toAlt
  | fromAlt
  | drop (n : Nat)
  | dup (n : Nat)
  | copyBelow (n : Nat)
  | rotate (n : Nat)
  | swap (n : Nat)
  | dupIfTrue
  | depth
  | nip
  | pick
  | roll
  | tuck
  | cat
  | split
  | toBinary
  | toNumber
  | size
  | bitwise (f : Bitwise)
  | equal (o : Outcome)
  | unary (f : Unary)
  | binary (f : Binary)
  | relation (r : Relation) (o : Outcome)
  | divide
  | remainder
  | within
  | digest (k : DigestKind)
  | codeSeparator
  | checkSig (o : Outcome)
  | checkMultiSig (o : Outcome)
  | checkDataSig (o : Outcome)
  | upgradableNop
  | invalid
  deriving DecidableEq, Repr

def Operation.ofOpcode (op : Opcode) : Operation :=
  if op ≤ Opcode.pushData4 then .pushData
  else if op = Opcode.negate1 then .pushNumber (-1)
  else if Opcode.one ≤ op ∧ op ≤ Opcode.sixteen then .pushNumber (op.toNat - 0x50)
  else
    match op.toNat with
    | 0x61 => .nop
    | 0x63 => .branch false
    | 0x64 => .branch true
    | 0x67 => .otherwise
    | 0x68 => .endBranch
    | 0x69 => .verify
    | 0x6a => .returnEarly
    | 0x6b => .toAlt
    | 0x6c => .fromAlt
    | 0x6d => .drop 2
    | 0x6e => .dup 2
    | 0x6f => .dup 3
    | 0x70 => .copyBelow 2
    | 0x71 => .rotate 2
    | 0x72 => .swap 2
    | 0x73 => .dupIfTrue
    | 0x74 => .depth
    | 0x75 => .drop 1
    | 0x76 => .dup 1
    | 0x77 => .nip
    | 0x78 => .copyBelow 1
    | 0x79 => .pick
    | 0x7a => .roll
    | 0x7b => .rotate 1
    | 0x7c => .swap 1
    | 0x7d => .tuck
    | 0x7e => .cat
    | 0x7f => .split
    | 0x80 => .toBinary
    | 0x81 => .toNumber
    | 0x82 => .size
    | 0x84 => .bitwise .and
    | 0x85 => .bitwise .or
    | 0x86 => .bitwise .xor
    | 0x87 => .equal .kept
    | 0x88 => .equal .verified
    | 0x8b => .unary .add1
    | 0x8c => .unary .sub1
    | 0x8f => .unary .negate
    | 0x90 => .unary .abs
    | 0x91 => .unary .not
    | 0x92 => .unary .notZero
    | 0x93 => .binary .add
    | 0x94 => .binary .sub
    | 0x96 => .divide
    | 0x97 => .remainder
    | 0x9a => .relation .bothNonzero .kept
    | 0x9b => .relation .someNonzero .kept
    | 0x9c => .relation .eq .kept
    | 0x9d => .relation .eq .verified
    | 0x9e => .relation .ne .kept
    | 0x9f => .relation .lt .kept
    | 0xa0 => .relation .gt .kept
    | 0xa1 => .relation .le .kept
    | 0xa2 => .relation .ge .kept
    | 0xa3 => .binary .min
    | 0xa4 => .binary .max
    | 0xa5 => .within
    | 0xa6 => .digest .ripemd160
    | 0xa7 => .digest .sha1
    | 0xa8 => .digest .sha256
    | 0xa9 => .digest .hash160
    | 0xaa => .digest .sha256d
    | 0xab => .codeSeparator
    | 0xac => .checkSig .kept
    | 0xad => .checkSig .verified
    | 0xae => .checkMultiSig .kept
    | 0xaf => .checkMultiSig .verified
    | 0xb0 => .upgradableNop
    | 0xb1 => .checkLockTime
    | 0xb2 => .checkSequence
    | 0xb3 => .upgradableNop
    | 0xb4 => .upgradableNop
    | 0xb5 => .upgradableNop
    | 0xb6 => .upgradableNop
    | 0xb7 => .upgradableNop
    | 0xb8 => .upgradableNop
    | 0xb9 => .upgradableNop
    | 0xba => .checkDataSig .kept
    | 0xbb => .checkDataSig .verified
    | _ => .invalid

end BitcoinCash
