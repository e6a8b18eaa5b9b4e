import DebugGuards.Text.Class
import DebugGuards.Text.Split

/-! Text inside markup. A tag is a bracketed text that starts with a lower-case letter
or one of `#`, `/`, `@` and holds no other opening bracket. A tag that starts with a
slash closes the last open one of its name, or the last of all if it has no name; a text
in which such a tag closes nothing is no markup. Names are compared as they are written,
handlers (of names with `@`) are not closed and colours are not given by their parts, so
that what is taken for markup is shown, while some texts that are not could be. So that a
text is shown as it is, each bracket that starts a tag gets a backslash, and the
backslashes right before it are doubled. A single backslash at the end is doubled too,
since a tag may follow. -/

namespace DebugGuards.Command

def isBracket (c : Char) : Bool := c == '[' || c == ']'

def opensTag (c : Char) : Bool := ('a' ≤ c && c ≤ 'z') || c == '#' || c == '/' || c == '@'

/-- Whether what follows an opening bracket makes it a tag. -/
def startsTag : List Char → Bool
  | c :: cs => opensTag c && cs.find? isBracket == some ']'
  | [] => false

section Tags

/-- The tags of a text that comes after `slashes` backslashes, without their brackets. After
an odd number of backslashes a bracket starts none. -/
def tagsOf (slashes : Nat) : List Char → List (List Char)
  | [] => []
  | c :: cs =>
    if c = '\\' then tagsOf (slashes + 1) cs
    else if c = '[' && slashes % 2 == 0 && startsTag cs then
      cs.takeWhile (· ≠ ']') :: tagsOf 0 cs
    else tagsOf 0 cs

/-- The name of a tag: what stands before an equals sign. -/
def tagName (tag : List Char) : List Char :=
  Text.trim Text.isBlank (tag.takeWhile (· ≠ '='))

/-- Opens or closes a tag while others are open, the last one opened being the first. -/
def turn (opened : List (List Char)) : List Char → Option (List (List Char))
  | '/' :: tag => do
    let name ← if (tagName tag).isEmpty then opened.head? else some (tagName tag)
    if opened.contains name && name.head? ≠ some '@' then some (opened.erase name) else none
  | tag =>
    if Text.holds "rgb(".toList tag then none else some (tagName tag :: opened)

/-- Whether a text can be shown as markup. -/
def isMarkup (s : String) : Bool := ((tagsOf 0 s.toList).foldlM turn []).isSome

end Tags

/-- Escapes the tags of a text that comes after `slashes` backslashes. -/
def escapeTags (slashes : Nat) : List Char → List Char
  | [] => List.replicate slashes '\\'
  | c :: cs =>
    if c = '\\' then escapeTags (slashes + 1) cs
    else if c = '[' && startsTag cs then
      List.replicate (2 * slashes + 1) '\\' ++ c :: escapeTags 0 cs
    else List.replicate slashes '\\' ++ c :: escapeTags 0 cs

def closeEscape (cs : List Char) : List Char :=
  match cs.reverse with
  | '\\' :: '\\' :: _ => cs
  | '\\' :: _ => cs ++ ['\\']
  | _ => cs

/-- The markup that shows a text as it is. -/
def escape (s : String) : String := String.ofList (closeEscape (escapeTags 0 s.toList))

end DebugGuards.Command
