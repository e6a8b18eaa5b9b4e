import DebugGuards.Json.Token

/-! The tokens of TOML text: brackets, braces, commas and equals signs, quoted texts,
bare words, and the ends of lines. A word may hold dots; whether they divide a key or
belong to a number is for the reader to decide. A text in three quotes may go over
several lines; a line end right at its start is no part of it, nor is one after a
backslash with the blanks that follow. -/

namespace DebugGuards.Toml

inductive Token where
  | sign (c : Char)
  | word (cs : List Char)
  | text (s : String)
  /-- A text in three quotes, which is no key. -/
  | block (s : String)
  | newline
deriving DecidableEq

section Text

/-- The character a letter after a backslash stands for. -/
def namedEscape? : Char → Option Char
  | '"' => some '"'
  | '\\' => some '\\'
  | 'b' => some '\x08'
  | 't' => some '\t'
  | 'n' => some '\n'
  | 'f' => some '\x0c'
  | 'r' => some '\r'
  | _ => none

/-- The character of a code point, which may not be a surrogate. -/
def scalarValue? (n : Nat) : Option Char :=
  if n < 0xd800 || (0xe000 ≤ n && n < 0x110000) then some (Char.ofNat n) else none

/-- Control characters, apart from the tab, do not stand in a text. -/
def standsInText (c : Char) : Bool := c == '\t' || (0x20 ≤ c.toNat && c.toNat ≠ 0x7f)

/-- The characters that are written with escapes, all others being in a class. -/
def basicText (stands : Char → Bool) : List Char → Option (List Char)
  | [] => some []
  | '\\' :: 'u' :: a :: b :: c :: d :: rest => do
    let x ← scalarValue? (← Json.hexOf [a, b, c, d])
    return x :: (← basicText stands rest)
  | '\\' :: 'U' :: a :: b :: c :: d :: e :: f :: g :: h :: rest => do
    let x ← scalarValue? (← Json.hexOf [a, b, c, d, e, f, g, h])
    return x :: (← basicText stands rest)
  | '\\' :: c :: rest => do
    let e ← namedEscape? c
    return e :: (← basicText stands rest)
  | c :: rest => do
    if stands c then return c :: (← basicText stands rest) else none

def isBlank (c : Char) : Bool := c == ' ' || c == '\t'

/-- Where a text in three double quotes is read: after a backslash, in what is left out, or
elsewhere. -/
inductive Place where
  | plain
  | escaped
  | gap
deriving DecidableEq

/-- Leaves out backslashes at the ends of lines, and the blanks and line ends after them. -/
def joinLines (place : Place) : List Char → List Char
  | [] => []
  | c :: rest =>
    if place = .escaped then c :: joinLines .plain rest
    else if place = .gap && (isBlank c || c == '\n') then joinLines .gap rest
    else if c ≠ '\\' then c :: joinLines .plain rest
    else if (rest.dropWhile isBlank).head? = some '\n' then joinLines .gap rest
    else c :: joinLines .escaped rest

/-- The characters written between three quotes. -/
def blockText (quote : Char) (cs : List Char) : Option (List Char) :=
  let stands (c : Char) := c == '\n' || standsInText c
  let cs := if cs.head? = some '\n' then cs.tail else cs
  if quote = '"' then basicText stands (joinLines .plain cs)
  else if cs.all stands then some cs else none

end Text

/-- What the lexer is in the middle of; collected characters are held backwards. -/
inductive Reading where
  | between
  | comment
  | word (taken : List Char)
  | basic (taken : List Char) (escaped : Bool)
  | literal (taken : List Char)
  /-- After two quotes. -/
  | pair (quote : Char)
  /-- After three quotes. The last characters taken are `quotes` quotes. -/
  | block (quote : Char) (taken : List Char) (quotes : Nat) (escaped : Bool)

/-- The lexer's state: what it is reading and the tokens so far, last one first. -/
structure Lexing where
  reading : Reading := .between
  tokens : List Token := []

def isWordChar (c : Char) : Bool :=
  c.isAlphanum || c == '_' || c == '-' || c == '+' || c == '.' || c == ':'

/-- A character outside of words, texts and comments. -/
def Lexing.begin (tokens : List Token) (c : Char) : Option Lexing :=
  if isBlank c then some ⟨.between, tokens⟩
  else if c == '\n' then some ⟨.between, .newline :: tokens⟩
  else if c == '#' then some ⟨.comment, tokens⟩
  else if c == '"' then some ⟨.basic [] false, tokens⟩
  else if c == '\'' then some ⟨.literal [], tokens⟩
  else if isWordChar c then some ⟨.word [c], tokens⟩
  else if ['[', ']', '{', '}', ',', '='].contains c then some ⟨.between, .sign c :: tokens⟩
  else none

def Lexing.step (s : Lexing) (c : Char) : Option Lexing :=
  match s.reading with
  | .between => begin s.tokens c
  | .comment =>
    if c == '\n' then begin s.tokens c else if standsInText c then some s else none
  | .word taken =>
    if isWordChar c then some { s with reading := .word (c :: taken) }
    else begin (.word taken.reverse :: s.tokens) c
  | .basic taken escaped =>
    if escaped then some { s with reading := .basic (c :: taken) false }
    else if c == '"' then
      if taken.isEmpty then some { s with reading := .pair c }
      else (basicText standsInText taken.reverse).map fun t =>
        ⟨.between, .text (String.ofList t) :: s.tokens⟩
    else some { s with reading := .basic (c :: taken) (c == '\\') }
  | .literal taken =>
    if c == '\'' then
      if taken.isEmpty then some { s with reading := .pair c }
      else some ⟨.between, .text (String.ofList taken.reverse) :: s.tokens⟩
    else if standsInText c then some { s with reading := .literal (c :: taken) }
    else none
  | .pair quote =>
    if c == quote then some { s with reading := .block quote [] 0 false }
    else begin (.text "" :: s.tokens) c
  | .block quote taken quotes escaped =>
    -- the last three of up to five quotes end the text
    if 3 ≤ quotes && (c ≠ quote || quotes == 5) then
      (blockText quote (taken.drop 3).reverse).bind fun t =>
        begin (.block (String.ofList t) :: s.tokens) c
    else if c == quote && !escaped then
      some { s with reading := .block quote (c :: taken) (quotes + 1) false }
    else some { s with reading := .block quote (c :: taken) 0 (c == '\\' && quote == '"' && !escaped) }

/-- Lines may end in a carriage return and a line feed. -/
def joinLineEnds : List Char → List Char
  | '\r' :: '\n' :: rest => '\n' :: joinLineEnds rest
  | c :: rest => c :: joinLineEnds rest
  | [] => []

/-- The tokens of a text, none if it is not made of tokens. The last line is ended
whether the text ends it or not. -/
def tokens (cs : List Char) : Option (List Token) := do
  let s ← (joinLineEnds cs ++ ['\n']).foldlM Lexing.step {}
  match s.reading with
  | .between => return s.tokens.reverse
  | _ => none

end DebugGuards.Toml
