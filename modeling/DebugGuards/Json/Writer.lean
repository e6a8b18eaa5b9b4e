import DebugGuards.Text.Quoted
import DebugGuards.Tree.Basic

/-! Writing JSON text. Every character outside printable ASCII is escaped, above the
basic plane as a surrogate pair. The laid-out form has two spaces per level and one
entry per line; the compact form has no blanks. -/

namespace DebugGuards.Json

def unitEscape (n : Nat) : List Char := '\\' :: 'u' :: Text.hex 4 n

def escapeChar (c : Char) : List Char :=
  if c = '"' then ['\\', '"']
  else if c = '\\' then ['\\', '\\']
  else if c = '\n' then ['\\', 'n']
  else if c = '\r' then ['\\', 'r']
  else if c = '\t' then ['\\', 't']
  else if c = '\x0c' then ['\\', 'f']
  else if c = '\x08' then ['\\', 'b']
  else
    let n := c.toNat
    if 0x20 ≤ n && n < 0x7f then [c]
    else if n < 0x10000 then unitEscape n
    else
      let m := n - 0x10000
      unitEscape (0xd800 + m / 0x400) ++ unitEscape (0xdc00 + m % 0x400)

def quoteText (s : String) : String := String.ofList ('"' :: s.toList.flatMap escapeChar ++ ['"'])

def scalarText : Scalar → String
  | .null => "null"
  | .bool b => if b then "true" else "false"
  | .int i => toString i
  | .float (.infinite negative) => if negative then "-Infinity" else "Infinity"
  | .float x => x.text
  | .str s => quoteText s

/-- The field name a scalar stands for. -/
def fieldName : Scalar → String
  | .str s => s
  | s => scalarText s

variable {α : Type}

/-- Entries between brackets, one per line inside `pad`. -/
def layOut (left right pad : String) : List String → String
  | [] => left ++ right
  | entries =>
    let inner := "\n" ++ pad ++ "  "
    left ++ inner ++ ("," ++ inner).intercalate entries ++ "\n" ++ pad ++ right

mutual
/-- The laid-out form, the lines after the first being indented by `pad`. -/
def pretty (pad : String) : Tree α → String
  | .scalar s => scalarText s
  | .arr _ items => layOut "[" "]" pad (prettyItems (pad ++ "  ") items)
  | .obj _ fields => layOut "\x7b" "\x7d" pad (prettyFields (pad ++ "  ") fields)
def prettyItems (pad : String) : List (Tree α) → List String
  | [] => []
  | t :: ts => pretty pad t :: prettyItems pad ts
def prettyFields (pad : String) : List (String × Tree α) → List String
  | [] => []
  | (k, t) :: ts => (quoteText k ++ ": " ++ pretty pad t) :: prettyFields pad ts
end

def write (t : Tree α) : String := pretty "" t

mutual
/-- The compact form of a document, on one line. -/
def compact : Tree α → String
  | .scalar s => scalarText s
  | .arr _ items => "[" ++ ",".intercalate (compactItems items) ++ "]"
  | .obj _ fields => "\x7b" ++ ",".intercalate (compactFields fields) ++ "\x7d"
def compactItems : List (Tree α) → List String
  | [] => []
  | t :: ts => compact t :: compactItems ts
def compactFields : List (String × Tree α) → List String
  | [] => []
  | (k, t) :: ts => (quoteText k ++ ":" ++ compact t) :: compactFields ts
end

end DebugGuards.Json
