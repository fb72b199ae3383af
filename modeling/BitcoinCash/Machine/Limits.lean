
namespace BitcoinCash

structure Limits where
  /-- Opcodes beyond the pushes, in one script. -/
  ops : Nat := 201
  /-- Elements on both stacks together. -/
  stackSize : Nat := 1000
  scriptSize : Nat := 10000
  elementSize : Nat := 520
  numberLength : Nat := 4
  lockTimeLength : Nat := 5
  publicKeys : Nat := 20
  deriving DecidableEq, Repr

end BitcoinCash
