import BitcoinCash.Script.Error

namespace BitcoinCash

inductive RejectCode
  | invalidFlags
  | invalidParams
  | scriptTooBig
  | elementTooBig
  | opCountExceeded
  | stackOverflow
  | invalidPubKeyCount
  | invalidSignatureCount
  | emptyStack
  | evalFalse
  | cleanStack
  | earlyReturn
  | disabledOpcode
  | badOpcode
  | malformedPush
  | unbalancedConditional
  | invalidStackOperation
  | minimalData
  | notPushOnly
  | discourageUpgradableNops
  | numberTooBig
  | divByZero
  | invalidOperandSize
  | invalidSplitRange
  | impossibleEncoding
  | verify
  | equalVerify
  | numEqualVerify
  | checkSigVerify
  | checkMultiSigVerify
  | checkDataSigVerify
  | invalidSigHashType
  | illegalForkId
  | sigDer
  | sigHighS
  | pubKeyType
  | nullFail
  | sigNullDummy
  | negativeLockTime
  | unsatisfiedLocktime
  deriving DecidableEq, Repr

def RejectCode.name : RejectCode → String
  | .invalidFlags => "InvalidFlags"
  | .invalidParams => "InvalidParams"
  | .scriptTooBig => "ScriptTooBig"
  | .elementTooBig => "ElementTooBig"
  | .opCountExceeded => "OpCountExceeded"
  | .stackOverflow => "StackOverflow"
  | .invalidPubKeyCount => "InvalidPubKeyCount"
  | .invalidSignatureCount => "InvalidSignatureCount"
  | .emptyStack => "EmptyStack"
  | .evalFalse => "EvalFalse"
  | .cleanStack => "CleanStack"
  | .earlyReturn => "EarlyReturn"
  | .disabledOpcode => "DisabledOpcode"
  | .badOpcode => "BadOpcode"
  | .malformedPush => "MalformedPush"
  | .unbalancedConditional => "UnbalancedConditional"
  | .invalidStackOperation => "InvalidStackOperation"
  | .minimalData => "MinimalData"
  | .notPushOnly => "NotPushOnly"
  | .discourageUpgradableNops => "DiscourageUpgradableNOPs"
  | .numberTooBig => "NumberTooBig"
  | .divByZero => "DivByZero"
  | .invalidOperandSize => "InvalidOperandSize"
  | .invalidSplitRange => "InvalidSplitRange"
  | .impossibleEncoding => "ImpossibleEncoding"
  | .verify => "Verify"
  | .equalVerify => "EqualVerify"
  | .numEqualVerify => "NumEqualVerify"
  | .checkSigVerify => "CheckSigVerify"
  | .checkMultiSigVerify => "CheckMultiSigVerify"
  | .checkDataSigVerify => "CheckDataSigVerify"
  | .invalidSigHashType => "InvalidSigHashType"
  | .illegalForkId => "IllegalForkID"
  | .sigDer => "SigDer"
  | .sigHighS => "SigHighS"
  | .pubKeyType => "PubKeyType"
  | .nullFail => "NullFail"
  | .sigNullDummy => "SigNullDummy"
  | .negativeLockTime => "NegativeLockTime"
  | .unsatisfiedLocktime => "UnsatisfiedLocktime"

inductive ScriptRole
  | unlocking
  | locking
  | redeem
  deriving DecidableEq, Repr

def ScriptRole.name : ScriptRole → String
  | .unlocking => "unlocking"
  | .locking => "locking"
  | .redeem => "redeem"

inductive VerifyOp
  | verify
  | equal
  | numEqual
  | checkSig
  | checkMultiSig
  | checkDataSig
  deriving DecidableEq, Repr

def VerifyOp.opcode : VerifyOp → Opcode
  | .verify => 0x69
  | .equal => 0x88
  | .numEqual => 0x9d
  | .checkSig => 0xad
  | .checkMultiSig => 0xaf
  | .checkDataSig => 0xbb

def VerifyOp.code : VerifyOp → RejectCode
  | .verify => .verify
  | .equal => .equalVerify
  | .numEqual => .numEqualVerify
  | .checkSig => .checkSigVerify
  | .checkMultiSig => .checkMultiSigVerify
  | .checkDataSig => .checkDataSigVerify

inductive DerRule
  | tooShort
  | tooLong
  | sequenceMarker
  | length
  | sLengthMissing
  | sLength
  | rMarker
  | rEmpty
  | rNegative
  | rPadded
  | sMarker
  | sEmpty
  | sNegative
  | sPadded
  deriving DecidableEq, Repr

def DerRule.message : DerRule → String
  | .tooShort => "too short"
  | .tooLong => "too long"
  | .sequenceMarker => "wrong sequence marker"
  | .length => "bad length"
  | .sLengthMissing => "S length missing"
  | .sLength => "invalid S length"
  | .rMarker => "R integer marker missing"
  | .rEmpty => "R length is zero"
  | .rNegative => "R is negative"
  | .rPadded => "R value has too much padding"
  | .sMarker => "S integer marker missing"
  | .sEmpty => "S length is zero"
  | .sNegative => "S is negative"
  | .sPadded => "S value has too much padding"

inductive Rejection
  | cleanStackWithoutP2sh
  | scriptSize (role : ScriptRole) (size limit : Nat)
  | malformedPush (e : ScriptError)
  | scriptCode (e : ScriptError)
  | notPushOnly
  | p2shNotPushOnly
  | uncleanStack (extra : Nat)
  | stackOverflow (size limit : Nat)
  | openConditional
  | unmatchedConditional (op : Opcode)
  | noRedeemScript
  | emptyStack
  | falseResult
  | elementSize (size limit : Nat)
  | concatenationSize (size limit : Nat)
  | requestedSize (n : Int) (limit : Nat)
  | opCount (limit : Nat)
  | disabledOpcode (op : Opcode)
  | invalidOpcode (op : Opcode)
  | longPush (length : Nat) (op expected : Opcode)
  | longNumber (b : Bytes)
  | numberLength (b : Bytes) (limit : Nat)
  | stackUnderflow (needed depth : Nat)
  | negativeIndex (n : Int)
  | failedVerify (op : VerifyOp)
  | earlyReturn
  | upgradableNop (op : Opcode)
  | noContextFor (op : Opcode)
  | noContextForSignature
  | negativeLockTime (n : Int)
  | lockTimeKinds (transaction stack : Int)
  | lockTimeUnreached (stack transaction : Int)
  | finalInput
  | transactionVersion (v : Nat)
  | sequenceDisabled (sequence : Nat)
  | splitPosition (n : Int) (length : Nat)
  | encodingSize (length size : Nat)
  | binaryNumberLength (limit : Nat)
  | operandSizes (a b : Nat)
  | divideByZero
  | remainderByZero
  | checkSigNotNull
  | checkMultiSigNotNull
  | checkDataSigNotNull
  | keyCount (n : Int) (limit : Nat)
  | signatureCount (n : Int) (limit : Nat)
  | dummyLength (length : Nat)
  | hashType (t : UInt8)
  | unexpectedForkId
  | missingForkId
  | keyEncoding
  | der (rule : DerRule)
  | highS
  | context (code : RejectCode) (text : String)
  deriving DecidableEq, Repr

namespace Rejection

def code : Rejection → RejectCode
  | cleanStackWithoutP2sh => .invalidFlags
  | scriptSize .. => .scriptTooBig
  | malformedPush _ | scriptCode _ => .malformedPush
  | notPushOnly | p2shNotPushOnly => .notPushOnly
  | uncleanStack _ => .cleanStack
  | stackOverflow .. => .stackOverflow
  | openConditional | unmatchedConditional _ => .unbalancedConditional
  | noRedeemScript | falseResult => .evalFalse
  | emptyStack => .emptyStack
  | elementSize .. | concatenationSize .. | requestedSize .. => .elementTooBig
  | opCount _ => .opCountExceeded
  | disabledOpcode _ => .disabledOpcode
  | invalidOpcode _ => .badOpcode
  | longPush .. | longNumber _ => .minimalData
  | numberLength .. | stackUnderflow .. | negativeIndex _ => .invalidStackOperation
  | failedVerify op => op.code
  | earlyReturn => .earlyReturn
  | upgradableNop _ => .discourageUpgradableNops
  | noContextFor _ | noContextForSignature => .invalidParams
  | negativeLockTime _ => .negativeLockTime
  | lockTimeKinds .. | lockTimeUnreached .. | finalInput | transactionVersion _
  | sequenceDisabled _ => .unsatisfiedLocktime
  | splitPosition .. => .invalidSplitRange
  | encodingSize .. => .impossibleEncoding
  | binaryNumberLength _ => .numberTooBig
  | operandSizes .. => .invalidOperandSize
  | divideByZero | remainderByZero => .divByZero
  | checkSigNotNull | checkMultiSigNotNull | checkDataSigNotNull => .nullFail
  | keyCount .. => .invalidPubKeyCount
  | signatureCount .. => .invalidSignatureCount
  | dummyLength _ => .sigNullDummy
  | hashType _ => .invalidSigHashType
  | unexpectedForkId | missingForkId => .illegalForkId
  | keyEncoding => .pubKeyType
  | der _ => .sigDer
  | highS => .sigHighS
  | context code _ => code

def showBytes (b : Bytes) : String :=
  "[" ++ ", ".intercalate (b.map fun x ↦ Hex.encode [x]) ++ "]"

def showHex (n : Nat) : String := "0x" ++ String.ofList (Nat.toDigits 16 n)

def message : Rejection → String
  | cleanStackWithoutP2sh => "clean stack requires P2SH evaluation"
  | scriptSize role size limit =>
    role.name ++ " script size " ++ toString size ++ " is larger than the max allowed size " ++
      toString limit
  | malformedPush e => "malformed push in script: " ++ e.message
  | scriptCode e => e.message
  | notPushOnly => "signature script is not push only"
  | p2shNotPushOnly => "pay to script hash is not push only"
  | uncleanStack extra => "stack contains " ++ toString extra ++ " unexpected items"
  | stackOverflow size limit =>
    "combined stack size " ++ toString size ++ " > max allowed " ++ toString limit
  | openConditional => "end of script reached in conditional execution"
  | unmatchedConditional op =>
    "encountered opcode " ++ op.name ++
      " with no matching opcode to begin conditional execution"
  | noRedeemScript => "pay to script hash spend has no redeem script"
  | emptyStack => "stack empty at end of script execution"
  | falseResult => "false stack entry at end of script execution"
  | elementSize size limit =>
    "element size " ++ toString size ++ " exceeds max allowed size " ++ toString limit
  | concatenationSize size limit =>
    "concatenated size " ++ toString size ++ " exceeds max allowed size " ++ toString limit
  | requestedSize n limit =>
    "requested size " ++ toString n ++ " outside 0..=" ++ toString limit
  | opCount limit => "exceeded max operation limit of " ++ toString limit
  | disabledOpcode op => "attempt to execute disabled opcode " ++ op.name
  | invalidOpcode op => "attempt to execute invalid opcode " ++ op.name
  | longPush length op expected =>
    "data push of " ++ toString length ++ " bytes encoded with opcode " ++ op.name ++
      " instead of " ++ expected.name
  | longNumber b => "numeric value encoded as " ++ showBytes b ++ " is not minimally encoded"
  | numberLength b limit =>
    "numeric value encoded as " ++ showBytes b ++ " is " ++ toString b.length ++
      " bytes which exceeds the max allowed of " ++ toString limit
  | stackUnderflow needed depth =>
    "operation needs " ++ toString needed ++ " stack items, stack has " ++ toString depth
  | negativeIndex n => "negative stack index " ++ toString n
  | failedVerify op => op.opcode.name ++ " failed"
  | earlyReturn => "script returned early"
  | upgradableNop op => op.name ++ " reserved for soft-fork upgrades"
  | noContextFor op => "no tx context for " ++ op.name
  | noContextForSignature => "no tx context for signature check"
  | negativeLockTime n => "negative lock time: " ++ toString n
  | lockTimeKinds transaction stack =>
    "mismatched locktime types -- tx locktime " ++ toString transaction ++ ", stack locktime " ++
      toString stack
  | lockTimeUnreached stack transaction =>
    "locktime requirement not satisfied -- locktime is greater than the transaction locktime: " ++
      toString stack ++ " > " ++ toString transaction
  | finalInput => "transaction input is finalized"
  | transactionVersion v => "invalid transaction version: " ++ toString v
  | sequenceDisabled sequence =>
    "transaction sequence has sequence locktime disabled bit set: " ++ showHex sequence
  | splitPosition n length =>
    "split position " ++ toString n ++ " outside 0..=" ++ toString length
  | encodingSize length size =>
    toString length ++ " byte number cannot fit in " ++ toString size ++ " bytes"
  | binaryNumberLength limit => "script numbers are limited to " ++ toString limit ++ " bytes"
  | operandSizes a b => "operand sizes differ: " ++ toString a ++ " != " ++ toString b
  | divideByZero => "divide by zero"
  | remainderByZero => "mod by zero"
  | checkSigNotNull => "signature not empty on failed checksig"
  | checkMultiSigNotNull => "not all signatures empty on failed checkmultisig"
  | checkDataSigNotNull => "signature not empty on failed checkdatasig"
  | keyCount n limit =>
    "number of pubkeys " ++ toString n ++ " outside 0..=" ++ toString limit
  | signatureCount n limit =>
    "number of signatures " ++ toString n ++ " outside 0..=" ++ toString limit
  | dummyLength length =>
    "multisig dummy argument has length " ++ toString length ++ " instead of 0"
  | hashType t => "invalid hash type " ++ showHex t.toNat
  | unexpectedForkId => "fork id sighash set without flag"
  | missingForkId => "fork id sighash required but not set"
  | keyEncoding => "unsupported public key type"
  | der rule => "malformed signature: " ++ rule.message
  | highS => "signature is not canonical due to unnecessarily high S value"
  | context _ text => text

def report (r : Rejection) : String := r.code.name ++ ": " ++ r.message

end Rejection

/-- What would be a defect of the machine itself. -/
inductive Fault
  | outOfRange
  | overflow
  | underflow
  | divideByZero
  deriving DecidableEq, Repr

inductive Halt
  | rejected (r : Rejection)
  | fault (f : Fault)
  deriving DecidableEq, Repr

abbrev Run := Except Halt

def reject {α : Type} (r : Rejection) : Run α := .error (.rejected r)

def require (c : Prop) [Decidable c] (r : Rejection) : Run Unit :=
  if c then .ok () else reject r

end BitcoinCash
