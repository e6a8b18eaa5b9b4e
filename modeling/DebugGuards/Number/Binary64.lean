/-! Double-precision numbers as exact data: a sign, a significand and a power of
two. A quotient of naturals is rounded to the nearest such number, a tie going to
the even significand, so reading a decimal is one division with remainder. Nothing
here uses machine floats, and every test on a number is integer arithmetic. -/

namespace DebugGuards

/-- `finite negative significand exponent` is `± significand · 2 ^ exponent`. -/
inductive Binary64 where
  | finite (negative : Bool) (significand : Nat) (exponent : Int)
  | infinite (negative : Bool)
deriving DecidableEq, Inhabited

namespace Binary64

def leastExponent : Int := -1074

def greatestExponent : Int := 971

def zero (negative : Bool) : Binary64 := .finite negative 0 leastExponent

/-- Division rounded to the nearest natural, a tie going to the even one. -/
def roundDiv (num den : Nat) : Nat :=
  let q := num / den
  let r := num % den
  if 2 * r > den || (2 * r == den && q % 2 == 1) then q + 1 else q

def pow2 (k : Nat) : Nat := Nat.pow 2 k

def pow10 (k : Nat) : Nat := Nat.pow 10 k

/-- `num / den` scaled by a power of two, as a fraction. -/
def scale (num den : Nat) (e : Int) : Nat × Nat :=
  if e ≥ 0 then (num, den * pow2 e.toNat) else (num * pow2 (-e).toNat, den)

/-- The exponent at which a positive fraction has a significand of 53 bits, or the
least exponent if that is larger. -/
def exponentFor (num den : Nat) : Int :=
  let e : Int := (num.log2 : Int) - den.log2 - 53
  let (n, d) := scale num den e
  max leastExponent (if n ≥ d * pow2 53 then e + 1 else e)

/-- The double nearest to a fraction. -/
def ofRatio (negative : Bool) (num den : Nat) : Binary64 :=
  if num = 0 then zero negative else
    let e := exponentFor num den
    let (n, d) := scale num den e
    let m := roundDiv n d
    let (m, e) := if m = pow2 53 then (pow2 52, e + 1) else (m, e)
    if e > greatestExponent then .infinite negative else .finite negative m e

def digitCount (n : Nat) : Nat := (Nat.toDigits 10 n).length

/-- The double nearest to `digits · 10 ^ exponent`. Exponents far outside the range
are settled without computing the power. -/
def ofDecimal (negative : Bool) (digits : Nat) (exponent : Int) : Binary64 :=
  let size := exponent + digitCount digits
  if digits = 0 || size < -400 then zero negative
  else if size > 400 then .infinite negative
  else if exponent ≥ 0 then ofRatio negative (digits * pow10 exponent.toNat) 1
  else ofRatio negative digits (pow10 (-exponent).toNat)

def isZero : Binary64 → Bool
  | .finite _ m _ => m == 0
  | .infinite _ => false

/-- The integer a double equals, if there is one. -/
def toInt? : Binary64 → Option Int
  | .infinite _ => none
  | .finite negative m e =>
    let (n, d) := scale 1 1 (-e)
    let whole := m * n / d
    if m * n % d = 0 then some (if negative then -whole else whole) else none

/-- An integer, however many bits it has. -/
def ofInt (i : Int) : Binary64 := .finite (i < 0) i.natAbs 0

/-- Order by value. -/
def atMost : Binary64 → Binary64 → Bool
  | .infinite a, .infinite b => a || !b
  | .infinite a, .finite _ _ _ => a
  | .finite _ _ _, .infinite b => !b
  | .finite a m e, .finite b n f =>
    let m := (m * pow2 (e - f).toNat : Int)
    let n := (n * pow2 (f - e).toNat : Int)
    (if a then -m else m) ≤ if b then -n else n

end Binary64

end DebugGuards
