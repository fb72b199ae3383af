import BitcoinCash.Secp256k1.Jacobian
import BitcoinCash.CryptoError

namespace BitcoinCash.Secp256k1

inductive Point
  | infinity
  | affine (x y : Int)
  deriving DecidableEq, Repr

def OnCurve (x y : Int) : Prop :=
  (0 ≤ x ∧ x < p) ∧ (0 ≤ y ∧ y < p) ∧ Residue.sqr y = Residue.curveRhs x

instance (x y : Int) : Decidable (OnCurve x y) :=
  inferInstanceAs (Decidable (_ ∧ _ ∧ _))

namespace Point

def g : Point :=
  .affine 0x79be667ef9dcbbac55a06295ce870b07029bfcdb2dce28d959f2815b16f81798
    0x483ada7726a3c4655da4fbfc0e1108a8fd17b448a68554199c47d08ffb10d4b8

def isInfinity : Point → Bool
  | .infinity => true
  | .affine _ _ => false

/-- Finite, in the field and on the curve; the first rule that fails is reported. -/
def check : Point → Except CryptoError Unit
  | .infinity => .error (.point .atInfinity)
  | .affine x y =>
    if ¬ ((0 ≤ x ∧ x < p) ∧ (0 ≤ y ∧ y < p)) then .error (.point .outsideField)
    else if Residue.sqr y ≠ Residue.curveRhs x then .error (.point .offCurve)
    else .ok ()

def ofCoordinates (x y : Int) : Except CryptoError Point := do
  check (.affine x y)
  return .affine x y

def ofX (odd : Bool) (x : Int) : Except CryptoError Point :=
  if x < 0 ∨ p ≤ x then .error (.point .xOutsideField)
  else
    let rhs := Residue.curveRhs x
    let y := Residue.sqrt rhs
    if Residue.sqr y ≠ rhs then .error (.point (.noPointAt x))
    else .ok (.affine x (if (y % 2 == 1) = odd then y else p - y))

def toJacobian : Point → Jacobian
  | .infinity => .infinity
  | .affine x y => .ofAffine x y

end Point

def Jacobian.toPoint (a : Jacobian) : Point :=
  if a.z = 0 then .infinity
  else
    match Modular.inverse a.z p with
    | .error _ => .infinity
    | .ok w =>
      let ww := Residue.sqr w
      .affine (Residue.mul a.x ww) (Residue.mul a.y (Residue.mul ww w))

namespace Point

def negate : Point → Point
  | .infinity => .infinity
  | .affine x y => .affine x ((p - y) % p)

def add (a b : Point) : Point :=
  (a.toJacobian.add b.toJacobian).toPoint

def double (a : Point) : Point :=
  a.toJacobian.double.toPoint

def mul (a : Point) (k : Int) : Point :=
  ((if k < 0 then a.negate else a).toJacobian.mul k.natAbs).toPoint

/-- `u` times the generator plus `v` times `q`, for magnitudes `u` and `v`. -/
def mulAdd (u v : Int) (q : Point) : Point :=
  let a := g.toJacobian
  let b := q.toJacobian
  (Jacobian.mulAdd a b (a.add b) u.natAbs v.natAbs).toPoint

def toSec1 (a : Point) (compressed : Bool) : Except CryptoError Bytes :=
  match a with
  | .infinity => .error (.point .atInfinity)
  | .affine x y => do
    let xs ← Integer.toBytes x 32 .big
    if compressed then
      return (if y % 2 = 1 then 3 else 2) :: xs
    else
      let ys ← Integer.toBytes y 32 .big
      return 4 :: (xs ++ ys)

def ofSec1 : Bytes → Except CryptoError Point
  | [] => .error (.point .emptyEncoding)
  | tag :: b =>
    if (tag = 2 ∨ tag = 3) ∧ b.length = 32 then ofX (tag = 3) (Integer.ofBytes b .big)
    else if tag = 4 ∧ b.length = 64 then
      ofCoordinates (Integer.ofBytes (b.take 32) .big) (Integer.ofBytes (b.drop 32) .big)
    else .error (.point (.unsupportedEncoding tag (b.length + 1)))

end Point

end BitcoinCash.Secp256k1
