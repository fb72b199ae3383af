import BitcoinCash.Integer.Modular

namespace BitcoinCash.Secp256k1

def p : Int := 0xfffffffffffffffffffffffffffffffffffffffffffffffffffffffefffffc2f

def n : Int := 0xfffffffffffffffffffffffffffffffebaaedce6af48a03bbfd25e8cd0364141

def halfN : Int := n / 2

namespace Residue

def add (a b : Int) : Int := (a + b) % p

def sub (a b : Int) : Int := (a - b) % p

def mul (a b : Int) : Int := a * b % p

def sqr (a : Int) : Int := mul a a

def curveRhs (x : Int) : Int := add (mul (sqr x) x) 7

def sqrt (a : Int) : Int := Modular.powNat a.toNat ((p.toNat + 1) / 4) p.toNat

end Residue

structure Jacobian where
  x : Int
  y : Int
  z : Int
  deriving DecidableEq, Repr

namespace Jacobian

open Residue

def infinity : Jacobian := ⟨1, 1, 0⟩

def ofAffine (x y : Int) : Jacobian := ⟨x, y, 1⟩

def double (a : Jacobian) : Jacobian :=
  if a.z = 0 ∨ a.y = 0 then infinity
  else
    let xx := sqr a.x
    let yy := sqr a.y
    let yyyy := sqr yy
    let d := mul 2 (sub (sub (sqr (add a.x yy)) xx) yyyy)
    let e := mul 3 xx
    let x := sub (sqr e) (mul 2 d)
    ⟨x, sub (mul e (sub d x)) (mul 8 yyyy), mul 2 (mul a.y a.z)⟩

def add (a b : Jacobian) : Jacobian :=
  if a.z = 0 then b
  else if b.z = 0 then a
  else
    let aa := sqr a.z
    let bb := sqr b.z
    let u := mul a.x bb
    let u' := mul b.x aa
    let s := mul (mul a.y b.z) bb
    let s' := mul (mul b.y a.z) aa
    if u = u' then
      if s = s' then a.double else infinity
    else
      let h := sub u' u
      let i := sqr (mul 2 h)
      let j := mul h i
      let r := mul 2 (sub s' s)
      let v := mul u i
      let x := sub (sub (sqr r) j) (mul 2 v)
      ⟨x, sub (mul r (sub v x)) (mul 2 (mul s j)),
        mul (sub (sub (sqr (Residue.add a.z b.z)) aa) bb) h⟩

/-- `k` times `a`: doubling at every binary digit of `k`, the highest first, and adding at ones. -/
def mul (a : Jacobian) (k : Nat) : Jacobian :=
  if k = 0 then infinity
  else
    let acc := (mul a (k / 2)).double
    if k % 2 = 1 then acc.add a else acc
termination_by k

/-- `u` times `a` plus `v` times `b`, on one chain of doublings; `both` is `a + b`. -/
def mulAdd (a b both : Jacobian) (u v : Nat) : Jacobian :=
  if u = 0 ∧ v = 0 then infinity
  else
    let acc := (mulAdd a b both (u / 2) (v / 2)).double
    if u % 2 = 1 then
      if v % 2 = 1 then acc.add both else acc.add a
    else
      if v % 2 = 1 then acc.add b else acc
termination_by u + v

end Jacobian

end BitcoinCash.Secp256k1
