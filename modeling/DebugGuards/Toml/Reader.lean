import DebugGuards.Toml.Token

/-! Reading TOML text. The tokens run a machine that knows the table the lines at hand
belong to and the lists and inline tables still open. A header opens a table, or adds
one to a list of tables; a path through such a list leads through its last table. A
key is assigned once, a table is opened by its header or by the keys of one header once,
and what is written as a value is not added to. Dates and times, infinities and what is
no number are not read: no document holds them. -/

namespace DebugGuards.Toml

section Tables

/-- Changes the table under a key, which is made if it is not there. -/
def within (t : Table String Json) (k : String)
    (change : Table String Json → Option (Table String Json)) : Option (Table String Json) :=
  match Table.get? t k with
  | none => (change []).map fun u => Table.set t k (.obj () u)
  | some (.obj _ fields) => (change fields).map fun u => Table.set t k (.obj () u)
  | some (.arr _ items) =>
    match items.getLast? with
    | some (.obj _ fields) =>
      (change fields).map fun u => Table.set t k (.arr () (items.dropLast ++ [.obj () u]))
    | _ => none
  | some _ => none

/-- Assigns a value under a path of keys, the last of which must be new. -/
def assign (v : Json) : List String → Table String Json → Option (Table String Json)
  | [], _ => none
  | [k], t => if Table.has t k then none else some (Table.set t k v)
  | k :: ks, t => within t k (assign v ks)

/-- Makes sure that there is a table under a path of keys. -/
def openTable : List String → Table String Json → Option (Table String Json)
  | [], _ => none
  | [k], t =>
    match Table.get? t k with
    | none => some (Table.set t k (.obj () []))
    | some (.obj _ _) => some t
    | some _ => none
  | k :: ks, t => within t k (openTable ks)

/-- Adds a table to the list of tables under a path of keys. -/
def addTable : List String → Table String Json → Option (Table String Json)
  | [], _ => none
  | [k], t =>
    match Table.get? t k with
    | none => some (Table.set t k (.arr () [.obj () []]))
    | some (.arr _ items) => some (Table.set t k (.arr () (items ++ [.obj () []])))
    | some _ => none
  | k :: ks, t => within t k (addTable ks)

end Tables

section Words

/-- Underscores stand between digits. -/
def separatorsFit (isDigit : Char → Bool) : List Char → Bool
  | '_' :: _ => false
  | c :: '_' :: d :: rest => isDigit c && isDigit d && separatorsFit isDigit (d :: rest)
  | [_, '_'] => false
  | _ :: rest => separatorsFit isDigit rest
  | [] => true

/-- The digits without underscores. -/
def digitsOf (isDigit : Char → Bool) (cs : List Char) : Option (List Char) :=
  if separatorsFit isDigit cs then some (cs.filter (· ≠ '_')) else none

/-- A natural in base two, eight or sixteen. -/
def radixNumber (base : Nat) (cs : List Char) : Option Scalar := do
  let ds ← digitsOf (fun c => (Json.hexValue? c).isSome) cs
  if ds.isEmpty then none
  let n ← ds.foldlM (fun n c => do
    let d ← Json.hexValue? c
    if d < base then some (base * n + d) else none) 0
  return .int (n : Nat)

/-- The scalar a bare word stands for. -/
def wordValue (cs : List Char) : Option Scalar :=
  if cs == "true".toList then some (.bool true)
  else if cs == "false".toList then some (.bool false)
  else match cs with
    | '0' :: 'x' :: ds => radixNumber 16 ds
    | '0' :: 'o' :: ds => radixNumber 8 ds
    | '0' :: 'b' :: ds => radixNumber 2 ds
    | cs => (digitsOf Char.isDigit cs).bind fun ds =>
      match ds with
      | '+' :: c :: ds => if c.isDigit then Json.numberOf (c :: ds) else none
      | ds => Json.numberOf ds

end Words

section Keys

/-- Parts of a key and the dots between them. -/
inductive Piece where
  | part (s : String)
  | dot
deriving DecidableEq

def isKeyChar (c : Char) : Bool := c.isAlphanum || c == '_' || c == '-'

/-- The pieces of a bare word, none if it holds a character that no bare key has. -/
def wordPieces (cs : List Char) : Option (List Piece) :=
  let runs := cs.splitBy fun a b => a ≠ '.' && b ≠ '.'
  runs.mapM fun run =>
    if run == ['.'] then some .dot
    else if run.all isKeyChar then some (.part (String.ofList run))
    else none

/-- The path that pieces spell. -/
def keyPath : List Piece → Option (List String)
  | [.part s] => some [s]
  | .part s :: .dot :: rest => (keyPath rest).map (s :: ·)
  | _ => none

/-- The pieces a token adds to a key. -/
def pieces : Token → Option (List Piece)
  | .word cs => wordPieces cs
  | .text s => some [.part s]
  | _ => none

end Keys

/-- The paths of lists and tables that are written as values. -/
abbrev Values := List (List String)

namespace Values

def cover (vs : Values) (path : List String) : Bool := vs.any (·.isPrefixOf path)

def add (vs : Values) (path : List String) : Json → Values
  | .scalar _ => vs
  | .arr _ _ | .obj _ _ => path :: vs

end Values

/-- A list or an inline table still open: the items so far, last one first, or the
fields so far and the key whose value comes next. -/
inductive Frame where
  | list (items : List Json)
  | table (fields : Table String Json) (values : Values) (key : List String)

/-- What the next token may be. -/
inductive Wanted where
  | line
  | header (double : Bool) (pieces : List Piece)
  | headerEnd (pieces : List Piece)
  | key (first : Bool) (pieces : List Piece)
  | value (first : Bool)
  | next
  | lineEnd

/-- The machine. `opened` are the paths of the tables opened and `passed` of those that the
keys under the header at hand open; `key` is that of the line at hand. -/
structure Parsing where
  document : Table String Json := []
  header : List String := []
  opened : List (List String) := []
  passed : List (List String) := []
  values : Values := []
  key : List String := []
  stack : List Frame := []
  wanted : Wanted := .line

namespace Parsing

/-- A value has ended: it goes into the innermost open composite, or into the table of
the line at hand. -/
def close (s : Parsing) (v : Json) : Option Parsing :=
  match s.stack with
  | [] =>
    let path := s.header ++ s.key
    let passed := (List.range (s.key.length - 1)).map fun i => s.header ++ s.key.take (i + 1)
    if passed.any s.opened.contains || s.values.cover path.dropLast then none else
      (assign v path s.document).map fun d => { s with
        document := d, passed := passed ++ s.passed, values := s.values.add path v
        wanted := .lineEnd }
  | .list items :: rest => some { s with stack := .list (v :: items) :: rest, wanted := .next }
  | .table fields values key :: rest =>
    if values.cover key then none else
      (assign v key fields).map fun f =>
        { s with stack := .table f (values.add key v) key :: rest, wanted := .next }

/-- A header has ended. A new table of a list may open its inner tables again. -/
def enter (s : Parsing) (double : Bool) (ps : List Piece) : Option Parsing := do
  let path ← keyPath ps
  let opened := s.passed ++ s.opened
  if s.values.cover path || (!double && opened.contains path) then none
  let free (paths : List (List String)) := paths.filter fun p => !(double && path.isPrefixOf p)
  let d ← if double then addTable path s.document else openTable path s.document
  return { s with
    document := d, header := path, opened := path :: free opened, passed := []
    values := free s.values, wanted := .lineEnd }

/-- The key of a value has ended. -/
def assignTo (s : Parsing) (ps : List Piece) : Option Parsing := do
  let path ← keyPath ps
  match s.stack with
  | .table fields values _ :: rest =>
    return { s with stack := .table fields values path :: rest, wanted := .value false }
  | _ => return { s with key := path, wanted := .value false }

/-- At the start of a line: a header, a key, or nothing. -/
def stepLine (s : Parsing) (t : Token) : Option Parsing :=
  match t with
  | .newline => some s
  | .sign '[' => some { s with wanted := .header false [] }
  | t => (pieces t).map fun ps => { s with wanted := .key false ps }

/-- In a header. A second bracket right at its start makes it one of a list. -/
def stepHeader (s : Parsing) (double : Bool) (ps : List Piece) (t : Token) : Option Parsing :=
  match t with
  | .sign '[' => if double || !ps.isEmpty then none else some { s with wanted := .header true [] }
  | .sign ']' => if double then some { s with wanted := .headerEnd ps } else s.enter false ps
  | t => (pieces t).map fun more => { s with wanted := .header double (ps ++ more) }

/-- In a key. Right at its start an inline table may end. -/
def stepKey (s : Parsing) (first : Bool) (ps : List Piece) (t : Token) : Option Parsing :=
  match t, s.stack with
  | .sign '=', _ => s.assignTo ps
  | .sign '}', .table fields _ _ :: rest =>
    if first then { s with stack := rest }.close (.obj () fields) else none
  | t, _ => (pieces t).map fun more => { s with wanted := .key false (ps ++ more) }

/-- Before a value. In a list there may be line ends, and right at its start or after a
comma it may end. -/
def stepValue (s : Parsing) (first : Bool) (t : Token) : Option Parsing :=
  match t, s.stack with
  | .text v, _ | .block v, _ => s.close (.str v)
  | .word cs, _ => (wordValue cs).bind fun v => s.close (.scalar v)
  | .newline, .list _ :: _ => some s
  | .sign '[', stack => some { s with stack := .list [] :: stack, wanted := .value true }
  | .sign '{', stack => some { s with stack := .table [] [] [] :: stack, wanted := .key true [] }
  | .sign ']', .list items :: rest =>
    if first then { s with stack := rest }.close (.arr () items.reverse) else none
  | _, _ => none

/-- After a value inside a list or an inline table. -/
def stepNext (s : Parsing) (t : Token) : Option Parsing :=
  match t, s.stack with
  | .newline, .list _ :: _ => some s
  | .sign ',', .list _ :: _ => some { s with wanted := .value true }
  | .sign ',', .table _ _ _ :: _ => some { s with wanted := .key false [] }
  | .sign ']', .list items :: rest => { s with stack := rest }.close (.arr () items.reverse)
  | .sign '}', .table fields _ _ :: rest => { s with stack := rest }.close (.obj () fields)
  | _, _ => none

def step (s : Parsing) (t : Token) : Option Parsing :=
  match s.wanted with
  | .line => s.stepLine t
  | .header double ps => s.stepHeader double ps t
  | .headerEnd ps => if t = .sign ']' then s.enter true ps else none
  | .key first ps => s.stepKey first ps t
  | .value first => s.stepValue first t
  | .next => s.stepNext t
  | .lineEnd => if t = .newline then some { s with wanted := .line } else none

end Parsing

/-- The table a text holds, none if it is not TOML. -/
def parse (s : String) : Option (Table String Json) := do
  let ts ← tokens s.toList
  let p ← ts.foldlM Parsing.step {}
  match p.wanted with
  | .line => return p.document
  | _ => none

end DebugGuards.Toml
