import DebugGuards.Files.Route
import DebugGuards.Table

/-! The words of a command line. A word that starts with a dash is an option if the
command knows it, or knows exactly one option it is the beginning of; a value may
follow an equals sign. Options of one letter may be written behind one dash. A
negative number, a dash alone and a word with a blank in it that is no option are
plain, and so is all that follows two dashes. -/

namespace DebugGuards.Command
open Files

inductive Switch where
  | help | version
  | out | config | packageVersion | helpersModule | helpersGlobal
  | externalize | strict | emitSource | verbose
deriving DecidableEq

def Switch.takesValue : Switch → Bool
  | out | config | packageVersion | helpersModule | helpersGlobal => true
  | _ => false

/-- The options before the name of the command. -/
def topSwitches : Table String Switch :=
  [("-h", .help), ("--help", .help), ("--version", .version)]

def expandSwitches : Table String Switch :=
  [("-h", .help), ("--help", .help), ("--out", .out), ("--config", .config),
    ("--package-version", .packageVersion), ("--externalize", .externalize),
    ("--helpers-module", .helpersModule), ("--helpers-global", .helpersGlobal),
    ("--strict", .strict), ("--emit-js", .emitSource), ("-v", .verbose), ("--verbose", .verbose)]

section Words

inductive Word where
  | plain (s : String)
  | divider
  | option (switch : Switch) (name : String) (value : Option String)
  | unknown
deriving DecidableEq

/-- A word at its first equals sign: what comes before it, and what comes after if there
is one. -/
def splitValue (cs : List Char) : List Char × Option String :=
  match cs.dropWhile (· ≠ '=') with
  | _ :: after => (cs.takeWhile (· ≠ '='), some (String.ofList after))
  | [] => (cs, none)

def digitsOnly (cs : List Char) : Bool := !cs.isEmpty && cs.all Char.isDigit

/-- What follows the dash of a negative number: digits, or digits behind a point with or
without some before it. -/
def isNumber (cs : List Char) : Bool :=
  match cs.dropWhile Char.isDigit with
  | [] => digitsOnly cs
  | '.' :: rest => digitsOnly rest
  | _ => false

/-- The options a word with one or two dashes may stand for. -/
def candidates (known : Table String Switch) (cs : List Char) : List Word :=
  match cs with
  | '-' :: '-' :: _ =>
    let (name, value) := splitValue cs
    (known.filter fun e => name.isPrefixOf e.1.toList).map fun e => .option e.2 e.1 value
  | '-' :: c :: rest =>
    (known.filter fun e => e.1.toList == ['-', c]).map fun e =>
      .option e.2 e.1 (some (String.ofList rest))
  | _ => []

/-- What a word is, none if it may stand for several options. -/
def classify (known : Table String Switch) (word : String) : Option Word :=
  match word.toList, Table.get? known word with
  | '-' :: rest, none =>
    if rest.isEmpty then some (.plain word) else
      let (name, value) := splitValue word.toList
      match value, Table.get? known (String.ofList name) with
      | some v, some switch => some (.option switch (String.ofList name) (some v))
      | _, _ =>
        match candidates known word.toList with
        | [w] => some w
        | _ :: _ :: _ => none
        | [] => some (if isNumber rest || rest.contains ' ' then .plain word else .unknown)
  | '-' :: _, some switch => some (.option switch word none)
  | _, _ => some (.plain word)

def classifyAll (known : Table String Switch) : List String → Option (List Word)
  | [] => some []
  | word :: rest =>
    if word = "--" then some (.divider :: rest.map .plain)
    else do return (← classify known word) :: (← classifyAll known rest)

/-- The options behind one dash: the one named and those of the letters after it. None if
there are no letters or one of them is not an option. -/
def bundle (known : Table String Switch) (switch : Switch) (name letters : String) :
    Option (List Switch) :=
  if name.length ≠ 2 || letters.isEmpty then none else do
    let more ← letters.toList.mapM fun c => Table.get? known (String.ofList ['-', c])
    return switch :: more

end Words

/-- What the expand command is asked to do. -/
structure Request where
  input : Route := {}
  out : Option Route := none
  config : Option Route := none
  packageVersion : Option String := none
  helpersModule : Option String := none
  helpersGlobal : Option String := none
  externalize : Bool := false
  strict : Bool := false
  emitSource : Bool := false
  verbose : Bool := false
deriving DecidableEq, Inhabited

inductive Invocation where
  | misuse
  | help
  | version
  | expand (request : Request)
deriving DecidableEq

namespace Request

def raise (r : Request) : Switch → Request
  | .externalize => { r with externalize := true }
  | .strict => { r with strict := true }
  | .emitSource => { r with emitSource := true }
  | .verbose => { r with verbose := true }
  | _ => r

def give (r : Request) (value : String) : Switch → Request
  | .out => { r with out := some (.ofText value) }
  | .config => { r with config := some (.ofText value) }
  | .packageVersion => { r with packageVersion := some value }
  | .helpersModule => { r with helpersModule := some value }
  | .helpersGlobal => { r with helpersGlobal := some value }
  | _ => r

end Request

/-- The words of the expand command. `named` says that the input was given and `surplus`
that there was a word too many. Asking for help ends the reading at once; a word too
many is only held against the line at its end. -/
def readExpand (r : Request) (named surplus : Bool) : List Word → Invocation
  | [] => if named && !surplus then .expand r else .misuse
  | .plain s :: .divider :: rest =>
    if named then readExpand r named true rest
    else readExpand { r with input := .ofText s } true surplus rest
  | .plain s :: rest =>
    if named then readExpand r named true rest
    else readExpand { r with input := .ofText s } true surplus rest
  | .divider :: rest => readExpand r named (surplus || named) rest
  | .unknown :: rest => readExpand r named true rest
  | .option switch name (some v) :: rest =>
    if switch.takesValue then readExpand (r.give v switch) named surplus rest
    else match bundle expandSwitches switch name v with
      | none => .misuse
      | some all =>
        if all.contains .help then .help else readExpand (all.foldl Request.raise r) named surplus rest
  | .option switch _ none :: rest =>
    if switch = .help then .help
    else if !switch.takesValue then readExpand (r.raise switch) named surplus rest
    else match rest with
      | .plain s :: rest => readExpand (r.give s switch) named surplus rest
      | _ => .misuse

/-- The words up to the name of the command, with the line as it was written. -/
def readTop (surplus : Bool) : List (Word × String) → Invocation
  | [] => .misuse
  | (.plain name, _) :: rest =>
    if name ≠ "expand" then .misuse
    else match classifyAll expandSwitches (rest.map Prod.snd) with
      | some words => readExpand {} false surplus words
      | none => .misuse
  | (.divider, _) :: _ => .misuse
  | (.unknown, _) :: rest => readTop true rest
  | (.option switch _ none, _) :: _ => if switch = .version then .version else .help
  | (.option switch name (some v), _) :: _ =>
    match bundle topSwitches switch name v with
    | some _ => .help
    | none => .misuse

/-- What a command line asks for. -/
def readLine (line : List String) : Invocation :=
  match classifyAll topSwitches line with
  | some words => readTop false (words.zip line)
  | none => .misuse

end DebugGuards.Command
