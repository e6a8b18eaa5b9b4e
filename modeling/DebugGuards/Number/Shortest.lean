import DebugGuards.Number.Binary64

/-! The shortest decimal that reads back as a given double. For one, two, ... up to
seventeen digits the two neighbours of the value on that decimal grid are read back;
the first grid with a hit wins, and of two hits the nearer one. The text is
positional while the decimal exponent lies in `[-4, 16)` and scientific outside. -/

namespace DebugGuards.Binary64

/-- The power `p` of ten with `10 ^ (p - 1) ≤ num / den < 10 ^ p`. -/
def decimalPoint (num den : Nat) : Int :=
  let d : Int := (digitCount num : Int) - digitCount den
  let reached := if d ≥ 0 then num ≥ den * pow10 d.toNat else num * pow10 (-d).toNat ≥ den
  if reached then d + 1 else d

/-- The neighbours of `num / den` with a given number of digits that read back as
`x`, as digits and exponent, the nearer one first. -/
def neighbours (x : Binary64) (num den : Nat) (digits : Nat) : List (Nat × Int) :=
  let k := decimalPoint num den - digits
  let n := if k ≥ 0 then num else num * pow10 (-k).toNat
  let d := if k ≥ 0 then den * pow10 k.toNat else den
  let low := n / d
  let r := n % d
  let ordered := if 2 * r < d || (2 * r == d && low % 2 == 0) then [low, low + 1] else [low + 1, low]
  (ordered.map fun c => (c, k)).filter fun c => ofDecimal false c.1 c.2 == x

/-- Digits and exponent of the shortest decimal of a positive finite double. -/
def shortest (significand : Nat) (exponent : Int) : Nat × Int :=
  let (n, d) := scale significand 1 (-exponent)
  let hit? := (List.range 17).findSome? fun i =>
    (neighbours (.finite false significand exponent) n d (i + 1)).head?
  hit?.getD (0, 0)

def trimZeros (ds : List Char) : List Char := (ds.reverse.dropWhile (· == '0')).reverse

def zeros (n : Nat) : String := String.ofList (List.replicate n '0')

/-- Decimal text of digits whose point stands after the first `point` of them. -/
def layout (ds : List Char) (point : Int) : String :=
  let all := String.ofList ds
  if -4 < point && point ≤ 16 then
    if point ≤ 0 then "0." ++ zeros (-point).toNat ++ all
    else
      let n := point.toNat
      if n ≥ ds.length then all ++ zeros (n - ds.length) ++ ".0"
      else String.ofList (ds.take n) ++ "." ++ String.ofList (ds.drop n)
  else
    let e := point - 1
    let size := toString e.natAbs
    let fraction := if ds.length ≤ 1 then "" else "." ++ String.ofList (ds.drop 1)
    let sign := if e < 0 then "-" else "+"
    String.ofList (ds.take 1) ++ fraction ++ "e" ++ sign ++ zeros (2 - size.length) ++ size

/-- The shortest text of a double, with at least one digit after a point. -/
def text : Binary64 → String
  | .infinite negative => if negative then "-inf" else "inf"
  | .finite negative m e =>
    let sign := if negative then "-" else ""
    if m = 0 then sign ++ "0.0" else
      let (digits, k) := shortest m e
      let ds := Nat.toDigits 10 digits
      sign ++ layout (trimZeros ds) (k + ds.length)

end DebugGuards.Binary64
