import DebugGuards.Tree.Basic

/-! The tokens of JSON text: the six structural characters and the scalars. A fold
over the characters collects texts and words; a text is decoded when its closing
quote is met and a word is classified when it ends. The numbers are those of JSON:
`NaN` and `Infinity` are no words. -/

namespace DebugGuards.Json

inductive Token where
  | sign (c : Char)
  | value (s : Scalar)
  /-- A text that is not made of characters. -/
  | broken
deriving DecidableEq

def natOf (ds : List Char) : Nat := ds.foldl (fun n c => 10 * n + (c.toNat - '0'.toNat)) 0

section Number

def signOf : List Char → Bool × List Char
  | '-' :: cs => (true, cs)
  | '+' :: cs => (false, cs)
  | cs => (false, cs)

/-- The exponent after its mark: an optional sign and at least one digit. -/
def exponentOf (cs : List Char) : Option Int :=
  let (negative, ds) := signOf cs
  if ds.isEmpty || !ds.all Char.isDigit then none
  else some (if negative then -(natOf ds : Int) else natOf ds)

/-- The part of a number after its integer digits: a fraction and an exponent, either
of which may be missing but not both. -/
def realOf (negative : Bool) (whole rest : List Char) : Option Scalar :=
  let (fraction, rest, ok) := match rest with
    | '.' :: cs =>
      let ds := cs.takeWhile Char.isDigit
      (ds, cs.dropWhile Char.isDigit, !ds.isEmpty)
    | cs => ([], cs, true)
  let exponent : Option Int := match rest with
    | [] => some 0
    | c :: cs => if c == 'e' || c == 'E' then exponentOf cs else none
  if !ok then none else
    exponent.map fun e =>
      .float (.ofDecimal negative (natOf (whole ++ fraction)) (e - fraction.length))

/-- A number: an integer unless it has a fraction or an exponent. -/
def numberOf (cs : List Char) : Option Scalar :=
  let (negative, cs) := match cs with
    | '-' :: rest => (true, rest)
    | _ => (false, cs)
  let whole := cs.takeWhile Char.isDigit
  let rest := cs.dropWhile Char.isDigit
  if whole.isEmpty || (whole.length > 1 && whole.head? == some '0') then none
  else if rest.isEmpty then some (.int (if negative then -(natOf whole : Int) else natOf whole))
  else realOf negative whole rest

end Number

/-- The scalar a word stands for. -/
def wordOf (cs : List Char) : Option Scalar :=
  if cs == "null".toList then some .null
  else if cs == "true".toList then some (.bool true)
  else if cs == "false".toList then some (.bool false)
  else numberOf cs

section Text

def hexValue? (c : Char) : Option Nat :=
  if c.isDigit then some (c.toNat - '0'.toNat)
  else if 'a' ≤ c && c ≤ 'f' then some (c.toNat - 'a'.toNat + 10)
  else if 'A' ≤ c && c ≤ 'F' then some (c.toNat - 'A'.toNat + 10)
  else none

def hexOf (ds : List Char) : Option Nat :=
  ds.foldlM (fun n c => (hexValue? c).map (16 * n + ·)) 0

/-- The character a letter after a backslash stands for. -/
def namedEscape? : Char → Option Char
  | '"' => some '"'
  | '\\' => some '\\'
  | '/' => some '/'
  | 'b' => some '\x08'
  | 'f' => some '\x0c'
  | 'n' => some '\n'
  | 'r' => some '\r'
  | 't' => some '\t'
  | _ => none

/-- The UTF-16 units of the text between two quotes, each escape being one unit and
each other character standing for itself. -/
def unitsOf : List Char → Option (List (Nat ⊕ Char))
  | [] => some []
  | '\\' :: 'u' :: a :: b :: c :: d :: rest => do
    let n ← hexOf [a, b, c, d]
    return .inl n :: (← unitsOf rest)
  | '\\' :: c :: rest => do
    let e ← namedEscape? c
    return .inr e :: (← unitsOf rest)
  | '\\' :: [] => none
  | c :: rest => do
    if c.toNat < 0x20 then none
    return .inr c :: (← unitsOf rest)

def isSurrogate (n : Nat) : Bool := 0xd800 ≤ n && n < 0xe000

/-- Joins surrogate pairs. A surrogate without its partner is no character. -/
def joinUnits : List (Nat ⊕ Char) → Option (List Char)
  | [] => some []
  | .inl hi :: .inl lo :: rest =>
    if 0xd800 ≤ hi && hi < 0xdc00 && 0xdc00 ≤ lo && lo < 0xe000 then
      (joinUnits rest).map (Char.ofNat (0x10000 + (hi - 0xd800) * 0x400 + (lo - 0xdc00)) :: ·)
    else if isSurrogate hi then none
    else (joinUnits (.inl lo :: rest)).map (Char.ofNat hi :: ·)
  | .inl n :: rest => if isSurrogate n then none else (joinUnits rest).map (Char.ofNat n :: ·)
  | .inr c :: rest => (joinUnits rest).map (c :: ·)

/-- The token of a text with given units. -/
def textToken (us : List (Nat ⊕ Char)) : Token :=
  match joinUnits us with
  | some cs => .value (.str (String.ofList cs))
  | none => .broken

end Text

/-- What the lexer is in the middle of; collected characters are held backwards. -/
inductive Reading where
  | between
  | word (taken : List Char)
  | text (taken : List Char) (escaped : Bool)

/-- The lexer's state: what it is reading and the tokens so far, last one first. -/
structure Lexing where
  reading : Reading := .between
  tokens : List Token := []

def isWordChar (c : Char) : Bool := c.isAlphanum || c == '+' || c == '-' || c == '.'

def isJsonBlank (c : Char) : Bool := c == ' ' || c == '\t' || c == '\n' || c == '\r'

/-- A character outside of words and texts. -/
def Lexing.begin (tokens : List Token) (c : Char) : Option Lexing :=
  if isJsonBlank c then some ⟨.between, tokens⟩
  else if c == '"' then some ⟨.text [] false, tokens⟩
  else if isWordChar c then some ⟨.word [c], tokens⟩
  else if ['{', '}', '[', ']', ':', ','].contains c then some ⟨.between, .sign c :: tokens⟩
  else none

def Lexing.step (s : Lexing) (c : Char) : Option Lexing :=
  match s.reading with
  | .between => begin s.tokens c
  | .word taken =>
    if isWordChar c then some { s with reading := .word (c :: taken) }
    else (wordOf taken.reverse).bind fun v => begin (.value v :: s.tokens) c
  | .text taken escaped =>
    if escaped then some { s with reading := .text (c :: taken) false }
    else if c == '\\' then some { s with reading := .text (c :: taken) true }
    else if c == '"' then
      (unitsOf taken.reverse).map fun us => ⟨.between, textToken us :: s.tokens⟩
    else some { s with reading := .text (c :: taken) false }

/-- The tokens of a text, none if it is not made of tokens. -/
def tokens (cs : List Char) : Option (List Token) := do
  let s ← cs.foldlM Lexing.step {}
  match s.reading with
  | .between => return s.tokens.reverse
  | .word taken => return (.value (← wordOf taken.reverse) :: s.tokens).reverse
  | .text _ _ => none

end DebugGuards.Json
