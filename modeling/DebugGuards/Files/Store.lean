import DebugGuards.Failure
import DebugGuards.Files.Route
import DebugGuards.Table

/-! A tree of files with text in them. A file is known by its place below the top
directory. A directory is there if it was listed or if something lies below it. -/

namespace DebugGuards.Files

structure Store where
  files : Table Place String := []
  folders : List Place := []
deriving DecidableEq, Inhabited

namespace Store

variable (s : Store)

def isFile (p : Place) : Bool := Table.has s.files p

def isFolder (p : Place) : Bool :=
  p.isEmpty || s.folders.any (p.isPrefixOf ·) || s.files.any fun e => p.isPrefixOf e.1 && p ≠ e.1

section Reading

/-- One name further on a path, which only leads on from a directory. `path` is the
path for the report. -/
def advance (path : String) (here : Place) (name : String) : Except Failure Place :=
  if s.isFile here then .error (.notDirectory path)
  else if !s.isFolder here then .error (.noSuchFile path)
  else if name ≠ ".." then .ok (here ++ [name])
  else if here.isEmpty then .error (.noSuchFile path)
  else .ok here.dropLast

/-- Where a path leads. -/
def locate (r : Route) : Except Failure Place :=
  if r.root ≠ "" then .error (.noSuchFile r.text) else r.names.foldlM (s.advance r.text) []

/-- The place of what a path leads to, if there is something. -/
def find? (r : Route) : Option Place :=
  match s.locate r with
  | .ok p => if s.isFile p || s.isFolder p then some p else none
  | .error _ => none

def read (r : Route) : Except Failure String := do
  let p ← s.locate r
  match Table.get? s.files p with
  | some text => return text
  | none => .error (if s.isFolder p then .isDirectory r.text else .noSuchFile r.text)

/-- A directory and those above it, innermost first. -/
def upward (p : Place) : List Place := (List.range (p.length + 1)).reverse.map p.take

/-- The text of the file of a name in the nearest directory that has one. Above the top
there is none. -/
def nearest (start : Route) (name : String) : Option String :=
  start.resolve.bind fun p => (upward p).findSome? fun d => Table.get? s.files (d ++ [name])

end Reading

section Listing

/-- All places at which there is something, the top apart. -/
def places : List Place :=
  ((Table.keys s.files ++ s.folders).flatMap fun p => (upward p).filter (!·.isEmpty)).eraseDups

/-- What lies below a directory and has a name with the given ending, as places from
that directory, in the order of their names. -/
def below (top : Place) (ending : String) : List Place :=
  let found := s.places.filter fun p =>
    top.isPrefixOf p && p ≠ top && (p.getLastD "").endsWith ending
  (found.map fun p => p.drop top.length).mergeSort fun a b => !decide (b < a)

end Listing

section Writing

/-- Writes a file and makes the directories above it. -/
def write (r : Route) (text : String) : Except Failure Store :=
  match r.resolve with
  | none => .error (.noSuchFile r.text)
  | some p =>
    if s.isFile p.dropLast then .error (.fileExists r.parent.text)
    else if (upward p.dropLast).any s.isFile then .error (.notDirectory r.parent.text)
    else if s.isFolder p then .error (.isDirectory r.text)
    else .ok { s with files := Table.set s.files p text }

/-- The files whose text differs from that in an earlier store. -/
def changedSince (before : Store) : Table Place String :=
  s.files.filter fun e => Table.get? before.files e.1 ≠ some e.2

end Writing

end Store

end DebugGuards.Files
