import DebugGuards.Text.Split

/-! Paths as they are written: the slashes a path starts with and the names between
slashes. Empty names and `.` say nothing and are dropped; `..` is kept, because where
it leads depends on the directories. The path without names is written `.`. -/

namespace DebugGuards.Files

/-- The names that lead from the top directory to a file or a directory. -/
abbrev Place := List String

structure Route where
  root : String := ""
  names : List String := []
deriving DecidableEq, Inhabited

namespace Route

/-- Two leading slashes are kept apart; three or more count as one. -/
def rootOf : List Char → String
  | '/' :: '/' :: '/' :: _ => "/"
  | '/' :: '/' :: _ => "//"
  | '/' :: _ => "/"
  | _ => ""

def ofText (s : String) : Route :=
  { root := rootOf s.toList
    names := ((Text.split ['/'] s.toList).map String.ofList).filter fun n => n ≠ "" && n ≠ "." }

def text (r : Route) : String :=
  if r.root = "" && r.names.isEmpty then "." else r.root ++ "/".intercalate r.names

/-- The last name, empty if there is none. -/
def name (r : Route) : String := r.names.getLastD ""

def parent (r : Route) : Route := { r with names := r.names.dropLast }

/-- Goes on from a path by the names of a place. -/
def enter (r : Route) (p : Place) : Route := { r with names := r.names ++ p }

/-- Where a path leads when every `..` takes back the name before it; none if that is
above the top. -/
def resolve (r : Route) : Option Place :=
  if r.root ≠ "" then none else
    r.names.foldlM (fun here n =>
      if n = ".." then (if here.isEmpty then none else some here.dropLast)
      else some (here ++ [n])) []

end Route

section Suffix

/-- A name without its suffix: what stands before its last dot, unless that dot is its
first or its last character. -/
def stem (name : String) : String :=
  let cs := name.toList.reverse
  let suffix := cs.takeWhile (· ≠ '.')
  let before := cs.drop (suffix.length + 1)
  if suffix.isEmpty || before.isEmpty then name else String.ofList before.reverse

/-- The path with its last name's suffix replaced. -/
def Route.withSuffix (r : Route) (suffix : String) : Route :=
  { r with names := r.names.dropLast ++ [stem r.name ++ suffix] }

end Suffix

end DebugGuards.Files
