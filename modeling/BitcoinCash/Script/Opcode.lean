import BitcoinCash.Bytes.Basic

namespace BitcoinCash

abbrev Opcode := UInt8

namespace Opcode

def pushData1 : Opcode := 0x4c
def pushData2 : Opcode := 0x4d
def pushData4 : Opcode := 0x4e
def negate1 : Opcode := 0x4f
def one : Opcode := 0x51
def sixteen : Opcode := 0x60
def ifOp : Opcode := 0x63
def endIf : Opcode := 0x68
def returnOp : Opcode := 0x6a
def dup : Opcode := 0x76
def equal : Opcode := 0x87
def equalVerify : Opcode := 0x88
def hash160 : Opcode := 0xa9
def codeSeparator : Opcode := 0xab
def checkSig : Opcode := 0xac
def checkMultiSig : Opcode := 0xae
def checkLockTimeVerify : Opcode := 0xb1
def checkSequenceVerify : Opcode := 0xb2
def checkDataSigVerify : Opcode := 0xbb

def assignedNames : List String :=
  ["NOP", "VER", "IF", "NOTIF", "VERIF", "VERNOTIF", "ELSE", "ENDIF", "VERIFY", "RETURN",
    "TOALTSTACK", "FROMALTSTACK", "2DROP", "2DUP", "3DUP", "2OVER", "2ROT", "2SWAP", "IFDUP",
    "DEPTH", "DROP", "DUP", "NIP", "OVER", "PICK", "ROLL", "ROT", "SWAP", "TUCK",
    "CAT", "SPLIT", "NUM2BIN", "BIN2NUM", "SIZE",
    "INVERT", "AND", "OR", "XOR", "EQUAL", "EQUALVERIFY", "RESERVED1", "RESERVED2",
    "1ADD", "1SUB", "2MUL", "2DIV", "NEGATE", "ABS", "NOT", "0NOTEQUAL", "ADD", "SUB", "MUL",
    "DIV", "MOD", "LSHIFT", "RSHIFT", "BOOLAND", "BOOLOR", "NUMEQUAL", "NUMEQUALVERIFY",
    "NUMNOTEQUAL", "LESSTHAN", "GREATERTHAN", "LESSTHANOREQUAL", "GREATERTHANOREQUAL", "MIN",
    "MAX", "WITHIN",
    "RIPEMD160", "SHA1", "SHA256", "HASH160", "HASH256", "CODESEPARATOR", "CHECKSIG",
    "CHECKSIGVERIFY", "CHECKMULTISIG", "CHECKMULTISIGVERIFY",
    "NOP1", "CHECKLOCKTIMEVERIFY", "CHECKSEQUENCEVERIFY", "NOP4", "NOP5", "NOP6", "NOP7", "NOP8",
    "NOP9", "NOP10", "CHECKDATASIG", "CHECKDATASIGVERIFY"]

def names : List String :=
  ["OP_0"] ++ (List.range' 1 75).map (fun n ↦ "OP_DATA_" ++ toString n) ++
    ["OP_PUSHDATA1", "OP_PUSHDATA2", "OP_PUSHDATA4", "OP_1NEGATE", "OP_RESERVED"] ++
    (List.range' 1 16).map (fun n ↦ "OP_" ++ toString n) ++
    assignedNames.map ("OP_" ++ ·) ++
    (List.range' 188 67).map (fun n ↦ "OP_UNKNOWN" ++ toString n) ++ ["OP_INVALIDOPCODE"]

def name (op : Opcode) : String := names.getD op.toNat ""

/-- A push of as many bytes as the code says or as a length field after it says. -/
def carriesData (op : Opcode) : Bool := 1 ≤ op && op ≤ pushData4

/-- The code with a name or one of four older names. Pushes that carry data cannot be named
without it. -/
def ofName? (s : String) : Option Opcode :=
  if s = "OP_FALSE" then some 0
  else if s = "OP_TRUE" then some one
  else if s = "OP_NOP2" then some checkLockTimeVerify
  else if s = "OP_NOP3" then some checkSequenceVerify
  else
    match names.findIdx? (· = s) with
    | some i => if carriesData (UInt8.ofNat i) then none else some (UInt8.ofNat i)
    | none => none

def smallNumber? (op : Opcode) : Option Nat :=
  if op = 0 then some 0
  else if one ≤ op ∧ op ≤ sixteen then some (op.toNat - 0x50)
  else none

def ofSmallNumber? (n : UInt8) : Option Opcode :=
  if n = 0 then some 0 else if n ≤ 16 then some (0x50 + n) else none

end Opcode

end BitcoinCash
