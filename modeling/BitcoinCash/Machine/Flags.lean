
namespace BitcoinCash

structure Flags where
  bits : UInt32
  deriving DecidableEq, Repr

namespace Flags

def none : Flags := ⟨0⟩

def p2sh : Flags := ⟨0x1⟩
def strictEncoding : Flags := ⟨0x2⟩
def derSignatures : Flags := ⟨0x4⟩
def lowS : Flags := ⟨0x8⟩
/-- A signature that fails its check is empty. -/
def nullFail : Flags := ⟨0x10⟩
/-- The extra argument of a multiple signature check is empty. -/
def nullDummy : Flags := ⟨0x20⟩
def pushOnly : Flags := ⟨0x40⟩
def minimalData : Flags := ⟨0x80⟩
/-- One element is left at the end; needs `p2sh`. -/
def cleanStack : Flags := ⟨0x100⟩
def checkLockTimeVerify : Flags := ⟨0x200⟩
def checkSequenceVerify : Flags := ⟨0x400⟩
def discourageUpgradableNops : Flags := ⟨0x800⟩
/-- Signatures carry the fork id and use the replay-protected digest. -/
def forkId : Flags := ⟨0x1000⟩
/-- Splicing, bitwise and division opcodes are enabled. -/
def monolith : Flags := ⟨0x2000⟩
def checkDataSig : Flags := ⟨0x4000⟩

def has (f g : Flags) : Bool := f.bits &&& g.bits == g.bits

def hasAny (f : Flags) (gs : List Flags) : Bool := gs.any f.has

instance : OrOp Flags := ⟨fun f g ↦ ⟨f.bits ||| g.bits⟩⟩

instance : AndOp Flags := ⟨fun f g ↦ ⟨f.bits &&& g.bits⟩⟩

def remove (f g : Flags) : Flags := ⟨f.bits &&& ~~~g.bits⟩

def mandatory : Flags :=
  p2sh ||| strictEncoding ||| pushOnly ||| cleanStack ||| lowS ||| nullFail |||
    checkLockTimeVerify ||| checkSequenceVerify ||| forkId ||| monolith ||| checkDataSig

def standard : Flags :=
  mandatory ||| derSignatures ||| nullDummy ||| minimalData ||| discourageUpgradableNops

end Flags

end BitcoinCash
