/-! # Double-precision numbers -/

namespace KripkeLogic

/-- The numbers `± significand * 2 ^ exponent` with 53 bits, and the two infinities. -/
inductive Binary64
  | finite (negative : Bool) (significand : Nat) (exponent : Int)
  | infinite (negative : Bool)
deriving DecidableEq, Inhabited

namespace Binary64

def leastExponent : Int := -1074

def greatestExponent : Int := 971

/-- The quotient rounded to the nearest integer, a half to the even neighbour. -/
def roundDiv (num den : Nat) : Nat :=
  let q := num / den
  let twice := 2 * (num % den)
  if twice < den then q
  else if den < twice then q + 1
  else if q % 2 = 0 then q else q + 1

def roundAt (num den : Nat) (e : Int) : Nat :=
  roundDiv (num * Nat.pow 2 (-e).toNat) (den * Nat.pow 2 e.toNat)

def ofQuotient (negative : Bool) (num den : Nat) : Binary64 :=
  if num = 0 then .finite negative 0 leastExponent
  else
    let low := max leastExponent ((num.log2 : Int) - (den.log2 : Int) - 53)
    let e := if Nat.pow 2 53 ≤ roundAt num den low then low + 1 else low
    let m := roundAt num den e
    let (m, e) := if m = Nat.pow 2 53 then (Nat.pow 2 52, e + 1) else (m, e)
    if greatestExponent < e then .infinite negative else .finite negative m e

/-- The double nearest to `digits * 10 ^ scale`. Scales out of reach of every double are cut
off before the power is built. -/
def ofDecimal (negative : Bool) (digits : Nat) (scale : Int) : Binary64 :=
  let top := scale + (Nat.toDigits 10 digits).length
  if digits = 0 ∨ top < -400 then .finite negative 0 leastExponent
  else if 400 < top then .infinite negative
  else ofQuotient negative (digits * Nat.pow 10 scale.toNat) (Nat.pow 10 (-scale).toNat)

def isZero : Binary64 → Bool
  | finite _ m _ => m = 0
  | infinite _ => false

def toInt? : Binary64 → Option Int
  | infinite _ => none
  | finite negative m e =>
    let num := m * Nat.pow 2 e.toNat
    let den := Nat.pow 2 (-e).toNat
    if num % den = 0 then some (if negative then -(num / den : Nat) else (num / den : Nat)) else none

/-- Both zeros are one number. -/
def same (x y : Binary64) : Bool := x = y || (x.isZero && y.isZero)

/-- The number scaled by `2 ^ 1074`, which makes every finite double an integer; the infinities
go beyond all of them. -/
def scaled : Binary64 → Int
  | finite negative m e =>
    let n := m * Nat.pow 2 (e - leastExponent).toNat
    if negative then -n else n
  | infinite negative => if negative then -Nat.pow 2 4096 else Nat.pow 2 4096

end Binary64

end KripkeLogic
