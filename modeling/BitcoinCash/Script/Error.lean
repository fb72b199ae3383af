import BitcoinCash.Script.Opcode
import BitcoinCash.Bytes.Hex

namespace BitcoinCash

inductive ScriptError
  | notP2pkh
  | notP2sh
  | directPush (op : Opcode) (length : Nat)
  | bareOpcode (op : Opcode)
  | asmToken (token : String)
  | hex (e : HexError)
  | dataTooSmall
  | dataTooBig
  deriving DecidableEq, Repr

def ScriptError.message : ScriptError → String
  | .notP2pkh => "invalid script: not a P2PKH script"
  | .notP2sh => "invalid script: not a P2SH script"
  | .directPush op length =>
    "invalid script: direct push 0x" ++ Hex.encode [op] ++ " carries " ++ toString length ++ " bytes"
  | .bareOpcode op => "use append_push_data for push data opcodes: " ++ op.name
  | .asmToken token => "invalid ASM token '" ++ token ++ "'"
  | .hex e => "hex decode error: " ++ e.message
  | .dataTooSmall => "not enough data"
  | .dataTooBig => "data too big"

end BitcoinCash
