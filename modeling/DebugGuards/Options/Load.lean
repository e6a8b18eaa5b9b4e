import DebugGuards.Files.Store
import DebugGuards.Json.Reader
import DebugGuards.Options.Check
import DebugGuards.Options.Merge
import DebugGuards.Toml.Reader

/-! Gathering options. They come in three layers, each going over the one before: the
settings in the nearest project file, an options file, and settings given explicitly.
A package version given in none of them is taken from the nearest package
manifest. -/

namespace DebugGuards.Options
open Files

/-- Settings given explicitly. -/
structure Overrides where
  packageVersion : Option Json := none
  externalize : Option Json := none
  strict : Option Json := none
  helpersModule : Option Json := none
  helpersGlobal : Option Json := none

/-- A field for a setting that was given. -/
def givenField (key : String) (v : Option Json) : Table String Json :=
  (v.map fun v => (key, v)).toList

def Overrides.document (x : Overrides) : Json :=
  let helpers := givenField "module" x.helpersModule ++ givenField "global" x.helpersGlobal
  .obj () <|
    givenField "packageVersion" x.packageVersion ++ givenField "externalizeHelpers" x.externalize ++
      givenField "strictMode" x.strict ++
      if helpers.isEmpty then [] else [("helpers", .obj () helpers)]

section Layers

/-- The three layers as one document. -/
def layered (settings : Json) (file : Option Json) (x : Overrides) : Except Failure Json := do
  let base ← match file with
    | some f => merge settings f
    | none => pure settings
  merge base x.document

/-- Whether a document names a package version, under either name of the option. An
empty one counts as none. -/
def namesVersion (t : Json) : Bool :=
  ["packageVersion", "package_version"].any fun k => ((Table.get? t.fields k).getD .null).truth

/-- The document with a package version, if one was found. -/
def withVersion (t : Json) : Option String → Json
  | some v => .obj () (Table.set t.fields "packageVersion" (.str v))
  | none => t

end Layers

section Gathering
variable (s : Store) (start : Route)

/-- The settings in the nearest project file, none if there is no such file. -/
def projectSettings : Except Failure Json :=
  match s.nearest start "pyproject.toml" with
  | none => .ok (.obj () [])
  | some text =>
    match Toml.parse text with
    | none => .error .unreadableToml
    | some table => do
      let tool := (Table.get? table "tool").getD (.obj () [])
      return (← tool.get? "debug_macros").getD (.obj () [])

def readDocument (r : Route) : Except Failure Json := do
  Json.read (← s.read r)

/-- The version in the nearest package manifest. An empty one counts as none. -/
def manifestVersion : Except Failure (Option String) :=
  match s.nearest start "package.json" with
  | none => .ok none
  | some text => do
    let version ← (← Json.read text).get "version"
    return if version.truth then some version.text else none

/-- The options for modules in a directory. -/
def load (file : Option Route) (x : Overrides) : Except Failure Options := do
  let settings ← projectSettings s start
  let document ← layered settings (← file.mapM (readDocument s)) x
  let document ← if namesVersion document then pure document
    else pure (withVersion document (← manifestVersion s start))
  ofJson document

end Gathering

end DebugGuards.Options
