import DebugGuards.Tree.Access

/-! The options of a run: the flag tables, the package version that deprecations are
checked against, and where diagnostics are sent. -/

namespace DebugGuards

/-- The flag that guards diagnostics. -/
def debugFlag : String := "DEBUG"

/-- The environment flags and the module they are imported from. -/
structure EnvFlags where
  source : String := "@ember/env-flags"
  flags : Table String Int := []
deriving DecidableEq, Inhabited

structure FeatureFlags where
  source : String := ""
  flags : Table String Int := []
deriving DecidableEq, Inhabited

/-- What becomes of the helpers import when helpers are external: nothing is said about
it, it is kept or not, or it is redirected to another module. -/
inductive HelperModule where
  | unset
  | keep (b : Bool)
  | redirect (module : String)
deriving DecidableEq, Inhabited

structure Helpers where
  module : HelperModule := .unset
  global : Option String := none
deriving DecidableEq, Inhabited

structure Options where
  packageVersion : Option String := none
  envFlags : EnvFlags := {}
  features : List FeatureFlags := []
  toolsSource : String := "@ember/debug-tools"
  externalize : Bool := false
  helpers : Helpers := {}
  strict : Bool := false
deriving DecidableEq, Inhabited

/-- Where diagnostic calls go. -/
inductive Target where
  | console
  | external
  | global (name : String)
deriving DecidableEq

namespace Options

/-- The namespace object of external helpers. -/
def helpersGlobal (o : Options) : Option String := if o.externalize then o.helpers.global else none

/-- The fate of the helpers import of external helpers. -/
def helpersModule (o : Options) : HelperModule := if o.externalize then o.helpers.module else .unset

/-- An empty namespace name counts as none. -/
def target (o : Options) : Target :=
  if !o.externalize then .console
  else match o.helpersGlobal with
    | some name => if name = "" then .external else .global name
    | none => .external

/-- Diagnostics are guarded by `DEBUG`, which is set. -/
def usual : Options := { envFlags := { flags := [(debugFlag, 1)] } }

end Options

end DebugGuards
