import DebugGuards.Failure
import DebugGuards.Json.Token

/-! Reading JSON text. The tokens run a machine whose stack holds the lists and
objects still open. A field name that is met again keeps its first place and takes
the later value. A document with a text that is not made of characters, having a
surrogate without its partner in it, is JSON but is not read: no document holds such a
text. -/

namespace DebugGuards.Json

/-- A composite still open: the items so far, last one first, or the fields so far
and the name whose value comes next. -/
inductive Frame where
  | list (items : List Json)
  | object (fields : Table String Json) (key : String)

/-- What the next token may be. `first` is set right after an opening bracket. -/
inductive Wanted where
  | value (first : Bool)
  | key (first : Bool)
  | colon
  | next

/-- The machine: a finished document, or open composites and what comes next. -/
inductive Parsing where
  | done (v : Json)
  | within (stack : List Frame) (wanted : Wanted)

namespace Parsing

/-- A value has ended: it goes into the innermost open composite. -/
def close (v : Json) : List Frame → Parsing
  | [] => done v
  | .list items :: rest => .within (.list (v :: items) :: rest) .next
  | .object fields key :: rest => .within (.object (Table.set fields key v) key :: rest) .next

def step : Parsing → Token → Option Parsing
  | done _, _ => none
  | .within stack (.value first), t =>
    match t, stack with
    | .value s, _ => some (close (.scalar s) stack)
    | .sign '[', _ => some (.within (.list [] :: stack) (.value true))
    | .sign '{', _ => some (.within (.object [] "" :: stack) (.key true))
    | .sign ']', .list [] :: rest => if first then some (close (.arr () []) rest) else none
    | _, _ => none
  | .within stack (.key first), t =>
    match t, stack with
    | .value (.str k), .object fields _ :: rest => some (.within (.object fields k :: rest) .colon)
    | .sign '}', .object fields _ :: rest => if first then some (close (.obj () fields) rest) else none
    | _, _ => none
  | .within stack .colon, t =>
    match t with
    | .sign ':' => some (.within stack (.value false))
    | _ => none
  | .within stack .next, t =>
    match t, stack with
    | .sign ',', .list _ :: _ => some (.within stack (.value false))
    | .sign ',', .object _ _ :: _ => some (.within stack (.key false))
    | .sign ']', .list items :: rest => some (close (.arr () items.reverse) rest)
    | .sign '}', .object fields _ :: rest => some (close (.obj () fields) rest)
    | _, _ => none

end Parsing

/-- The document that tokens make. -/
def document? (ts : List Token) : Option Json :=
  match ts.foldlM Parsing.step (.within [] (.value false)) with
  | some (.done v) => some v
  | _ => none

/-- The token with a text that is made of characters. -/
def Token.mended : Token → Token
  | .broken => .value (.str "")
  | t => t

/-- The document a text holds. -/
def read (s : String) : Except Failure Json :=
  match tokens s.toList with
  | none => .error .unreadableJson
  | some ts =>
    match document? (ts.map Token.mended) with
    | none => .error .unreadableJson
    | some v => if ts.contains .broken then .error .badShape else .ok v

/-- The document a text holds, none if there is none to read. -/
def parse (s : String) : Option Json := (read s).toOption

end DebugGuards.Json
