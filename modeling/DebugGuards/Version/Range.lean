import DebugGuards.Version.Basic

/-! Version ranges. A range is a choice of groups, a group a list of blocks or a pair
of bounds, and a block stands for one or two comparisons. A prerelease is compared only
with targets of the same three numbers, unless a comparison says otherwise; a group
with prerelease targets therefore gives two alternatives, one that admits prereleases
and one for releases. -/

namespace DebugGuards

namespace Version

inductive Operator where
  | eq | lt | le | gt | ge
deriving DecidableEq

/-- One comparison. `anyPrerelease` lets prereleases of other versions take part. -/
structure Clause where
  operator : Operator
  target : Version
  anyPrerelease : Bool := false

def Clause.holds (c : Clause) (v : Version) : Bool :=
  let v := if c.target.build.isEmpty then v.withoutBuild else v
  if !v.pre.isEmpty && !c.anyPrerelease && v.core ≠ c.target.core then false
  else
    let order := v.precedence c.target
    match c.operator with
    | .eq => v == c.target
    | .lt => order.isLT
    | .le => order.isLE
    | .gt => order.isGT
    | .ge => order.isGE

/-- A range: it holds of a version if all clauses of one alternative do. -/
abbrev Range := List (List Clause)

def Range.holds (r : Range) (v : Version) : Bool := r.any fun clauses => clauses.all (·.holds v)

/-- Why a text is no range: it cannot be read, or a bound of a hyphen range is no
block at all. -/
inductive RangeFault where
  | unreadable
  | malformedBound
deriving DecidableEq

section Blocks

inductive Comparator where
  | eq | lt | le | gt | ge | caret | tilde
deriving DecidableEq

/-- A block as written; a number that is missing or a wildcard is none. -/
structure Block where
  comparator : Comparator
  major : Option Nat
  minor : Option Nat
  patch : Option Nat
  pre : List Char
  build : List Char

def comparatorOf : List Char → Comparator × List Char
  | '<' :: '=' :: cs => (.le, cs)
  | '>' :: '=' :: cs => (.ge, cs)
  | '<' :: cs => (.lt, cs)
  | '>' :: cs => (.gt, cs)
  | '=' :: cs => (.eq, cs)
  | '^' :: cs => (.caret, cs)
  | '~' :: cs => (.tilde, cs)
  | cs => (.eq, cs)

/-- A number without leading zeros, or a wildcard. -/
def component? (cs : List Char) : Option (Option Nat) :=
  if cs == ['x'] || cs == ['X'] || cs == ['*'] then some none
  else if cs.isEmpty || !cs.all Char.isDigit || hasLeadingZero cs then none
  else (number? cs).map some

/-- The identifiers' text after a mark, none if it holds other characters. -/
def tail? : List Char → Option (List Char)
  | [] => some []
  | _ :: cs => if cs.all isIdentifierChar then some cs else none

def Block.parse (cs : List Char) : Option Block := do
  let cs := dropFinalNewline cs
  let cs := if cs.head? == some 'v' then cs.drop 1 else cs
  let (comparator, cs) := comparatorOf cs
  let core := cs.takeWhile fun c => c ≠ '-' && c ≠ '+'
  let rest := cs.dropWhile fun c => c ≠ '-' && c ≠ '+'
  let pre ← tail? (rest.takeWhile (· ≠ '+'))
  let build ← tail? (rest.dropWhile (· ≠ '+'))
  let components ← (Text.split ['.'] core).mapM component?
  match components with
  | [a] => return ⟨comparator, a, none, none, pre, build⟩
  | [a, b] => return ⟨comparator, a, b, none, pre, build⟩
  | [a, b, c] => return ⟨comparator, a, b, c, pre, build⟩
  | _ => none

/-- The identifiers of a target; an empty text is none of them. -/
def targetIdentifiers? (strict : Bool) (cs : List Char) : Option (List (List Char)) :=
  if cs.isEmpty then some [] else identifiers? strict cs

/-- The version a block compares with. Only an equality looks at the build. -/
def Block.target? (b : Block) : Option Version :=
  let build := if b.comparator = .eq then b.build else []
  match b.major, b.minor, b.patch with
  | some major, some minor, some patch => do
    return ⟨major, minor, patch, ← targetIdentifiers? true b.pre, ← targetIdentifiers? false build⟩
  | major, minor, _ =>
    if !b.pre.isEmpty || !build.isEmpty then none
    else some ⟨major.getD 0, if major.isSome then minor.getD 0 else 0, 0, [], []⟩

/-- The first version above all that a caret admits. -/
def Block.caretBound (b : Block) (target : Version) : Version :=
  let t := target.core
  if t.major > 0 then t.nextMajor
  else if t.minor > 0 then t.nextMinor
  else if b.minor.isNone then t.nextMajor
  else if b.patch.isNone then t.nextMinor
  else t.nextPatch

/-- The comparisons a block stands for. -/
def Block.clauses? (b : Block) : Option (List Clause) := do
  let t ← b.target?
  if b.major.isNone then
    if b.comparator = .eq || b.comparator = .ge then return [⟨.ge, t, false⟩] else none
  else
    match b.comparator with
    | .caret => return [⟨.ge, t, false⟩, ⟨.lt, b.caretBound t, false⟩]
    | .tilde =>
      return [⟨.ge, t, false⟩, ⟨.lt, if b.minor.isNone then t.nextMajor else t.nextMinor, false⟩]
    | .eq =>
      if b.minor.isNone then return [⟨.ge, t, false⟩, ⟨.lt, t.nextMajor, false⟩]
      else if b.patch.isNone then return [⟨.ge, t, false⟩, ⟨.lt, t.nextMinor, false⟩]
      else return [⟨.eq, t, false⟩]
    | .gt =>
      if b.minor.isNone then return [⟨.ge, t.nextMajor, false⟩]
      else if b.patch.isNone then return [⟨.ge, t.nextMinor, false⟩]
      else return [⟨.gt, t, false⟩]
    | .le =>
      if b.minor.isNone then return [⟨.lt, t.nextMajor, false⟩]
      else if b.patch.isNone then return [⟨.lt, t.nextMinor, false⟩]
      else return [⟨.le, t, false⟩]
    | .ge => return [⟨.ge, t, false⟩]
    | .lt => return [⟨.lt, t, false⟩]

end Blocks

section Groups

/-- The comparisons that let the prereleases of a clause's target take part. -/
def Clause.admitting (c : Clause) : List Clause :=
  let t := c.target
  match c.operator with
  | .gt | .ge => [⟨.lt, t.nextPatch, true⟩, c]
  | .lt | .le => [⟨.ge, ⟨t.major, t.minor, 0, [], []⟩, true⟩, c]
  | .eq => [c]

/-- The alternatives the clauses of a group give. -/
def alternatives (clauses : List Clause) : Range :=
  let admitting := (clauses.filter fun c => !c.target.pre.isEmpty).flatMap Clause.admitting
  let plain := clauses.map fun c =>
    if c.target.pre.isEmpty then c else { c with target := c.target.core }
  if admitting.isEmpty then [plain] else [admitting, plain]

def ofOption {α : Type} (r : Option α) : Except RangeFault α :=
  match r with
  | some a => .ok a
  | none => .error .unreadable

def bound (cs : List Char) : Except RangeFault (List Clause) :=
  match Block.parse cs with
  | none => .error .malformedBound
  | some b => ofOption b.clauses?

def block (cs : List Char) : Except RangeFault (List Clause) :=
  ofOption ((Block.parse cs).bind Block.clauses?)

/-- The clauses of a group: two bounds around a hyphen, or blocks divided by single
spaces. -/
def groupClauses (cs : List Char) : Except RangeFault (List Clause) := do
  match Text.split [' ', '-', ' '] cs with
  | [low, high] =>
    let low ← bound ('>' :: '=' :: low)
    return low ++ (← bound ('<' :: '=' :: high))
  | [_] => return (← (Text.split [' '] cs).mapM block).flatten
  | _ => .error .unreadable

/-- A group without the blanks around it; an empty one admits every release. -/
def group (cs : List Char) : Except RangeFault (List Clause) :=
  let cs := Text.trim Text.isBlank cs
  if cs.isEmpty then .ok [⟨.ge, ⟨0, 0, 0, [], []⟩, false⟩] else groupClauses cs

def Range.parse (cs : List Char) : Except RangeFault Range := do
  return ((← (Text.split ['|', '|'] cs).mapM group).map alternatives).flatten

end Groups

/-- What a version has to do with a range. -/
def satisfies (version range : String) : Except RangeFault Bool := do
  let v ← ofOption (Version.parse version.toList)
  return (← Range.parse range.toList).holds v

end Version

end DebugGuards
