
namespace BitcoinCash

inductive ModularError
  | zeroModulus
  | negativeExponent
  | noInverse
  deriving DecidableEq, Repr

namespace Modular

def reduce (a m : Int) : Except ModularError Int :=
  if m = 0 then .error .zeroModulus else .ok (a.fmod m)

def powNat (a e m : Nat) : Nat :=
  if e = 0 then 1 % m
  else
    let h := powNat (a * a % m) (e / 2) m
    if e % 2 = 1 then a * h % m else h
termination_by e

def pow (a e m : Int) : Except ModularError Int :=
  if m = 0 then .error .zeroModulus
  else if e < 0 then .error .negativeExponent
  else .ok ((powNat (a.emod m).toNat e.toNat m.natAbs : Int).fmod m)

/-- Euclid's algorithm on `(r, s)`, keeping a coefficient `x` beside `r` and `y` beside `s`;
gives the common divisor and its coefficient. -/
def euclid (r s : Nat) (x y : Int) : Nat × Int :=
  if s = 0 then (r, x) else euclid s (r % s) y (x - (r / s : Nat) * y)
termination_by s
decreasing_by exact Nat.mod_lt _ (by omega)

def inverse (a m : Int) : Except ModularError Int :=
  if m = 0 then .error .zeroModulus
  else
    let r := (a.emod m).toNat
    if r = 0 then .error .noInverse
    else
      let (g, x) := euclid r m.natAbs 1 0
      if g = 1 then .ok (x.fmod m) else .error .noInverse

end Modular

end BitcoinCash
