import DebugGuards.Text.Class
import DebugGuards.Text.Split

/-! Semantic versions: three numbers, and the identifiers of a prerelease and of a
build, each a list of characters. Precedence looks at the numbers, then at the
prerelease; the build has no say in it. -/

namespace DebugGuards

structure Version where
  major : Nat
  minor : Nat
  patch : Nat
  pre : List (List Char) := []
  build : List (List Char) := []
deriving DecidableEq, Inhabited

namespace Version

section Reading

def isIdentifierChar (c : Char) : Bool := c.isAlphanum || c == '.' || c == '-'

/-- Digits that start with a zero without being just that. -/
def hasLeadingZero (ds : List Char) : Bool :=
  ds.head? == some '0' && ds.length > 1 && ds.all fun c => (Text.digitValue? c).isSome

/-- A number in decimal digits of any script. -/
def number? (ds : List Char) : Option Nat :=
  if ds.isEmpty || hasLeadingZero ds then none
  else ds.foldlM (fun n c => (Text.digitValue? c).map (10 * n + ·)) 0

/-- Identifiers divided by dots. None may be empty, and those of a prerelease that are
numbers have no leading zero. -/
def identifiers? (strict : Bool) (cs : List Char) : Option (List (List Char)) :=
  let parts := Text.split ['.'] cs
  if parts.all fun p => !p.isEmpty && !(strict && hasLeadingZero p) then some parts else none

/-- A text without one line feed at its end. -/
def dropFinalNewline (cs : List Char) : List Char :=
  match cs.reverse with
  | '\n' :: rest => rest.reverse
  | _ => cs

/-- The identifiers after their mark, none if the mark is absent. -/
def marked? (strict : Bool) : List Char → Option (List (List Char))
  | [] => some []
  | _ :: cs => if cs.isEmpty || !cs.all isIdentifierChar then none else identifiers? strict cs

def parse (cs : List Char) : Option Version := do
  let cs := dropFinalNewline cs
  let core := cs.takeWhile fun c => c ≠ '-' && c ≠ '+'
  let rest := cs.dropWhile fun c => c ≠ '-' && c ≠ '+'
  let pre := rest.takeWhile (· ≠ '+')
  let build := rest.dropWhile (· ≠ '+')
  match Text.split ['.'] core with
  | [a, b, c] =>
    return { major := ← number? a, minor := ← number? b, patch := ← number? c
             pre := ← marked? true pre, build := ← marked? false build }
  | _ => none

end Reading

section Precedence

def natOf (ds : List Char) : Nat := ds.foldl (fun n c => 10 * n + (c.toNat - '0'.toNat)) 0

/-- Numbers come before words, numbers by value and words by their characters. -/
def compareIdentifier (a b : List Char) : Ordering :=
  let numeric (cs : List Char) := !cs.isEmpty && cs.all Char.isDigit
  match numeric a, numeric b with
  | true, true => compare (natOf a) (natOf b)
  | true, false => .lt
  | false, true => .gt
  | false, false => compare a b

/-- Identifier by identifier; a proper beginning comes first. -/
def compareIdentifiers : List (List Char) → List (List Char) → Ordering
  | [], [] => .eq
  | [], _ :: _ => .lt
  | _ :: _, [] => .gt
  | a :: as, b :: bs => (compareIdentifier a b).then (compareIdentifiers as bs)

/-- A release comes after its prereleases. -/
def comparePre : List (List Char) → List (List Char) → Ordering
  | [], [] => .eq
  | [], _ :: _ => .gt
  | _ :: _, [] => .lt
  | as, bs => compareIdentifiers as bs

def precedence (v w : Version) : Ordering :=
  (compare v.major w.major).then <| (compare v.minor w.minor).then <|
    (compare v.patch w.patch).then (comparePre v.pre w.pre)

end Precedence

section Neighbours
variable (v : Version)

def core : Version := ⟨v.major, v.minor, v.patch, [], []⟩

def withoutBuild : Version := { v with build := [] }

def nextMajor : Version :=
  if v.pre ≠ [] ∧ v.minor = 0 ∧ v.patch = 0 then ⟨v.major, 0, 0, [], []⟩ else ⟨v.major + 1, 0, 0, [], []⟩

def nextMinor : Version :=
  if v.pre ≠ [] ∧ v.patch = 0 then ⟨v.major, v.minor, 0, [], []⟩ else ⟨v.major, v.minor + 1, 0, [], []⟩

def nextPatch : Version := ⟨v.major, v.minor, v.patch + 1, [], []⟩

end Neighbours

end Version

end DebugGuards
