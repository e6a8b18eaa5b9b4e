import DebugGuards.Expansion.Deprecation
import DebugGuards.Expansion.Guard
import DebugGuards.Expansion.HelperCall
import DebugGuards.Version.Range

/-! Call sites. An expression statement that calls an imported helper by its bound name
is handed to the helper's builder. An assertion is guarded by its identifier arguments,
a warning by nothing but the debug flag, and a deprecation by its predicate. A
deprecation whose time has come is removed at once. All checks of a call come before
the first change. -/

namespace DebugGuards.Expansion

inductive Diagnostic where
  | assertion | warning | deprecation
deriving DecidableEq

def Diagnostic.ofName? : Json → Option Diagnostic
  | .str "assert" => some assertion
  | .str "warn" => some warning
  | .str "deprecate" => some deprecation
  | _ => none

/-- Whether the version is in the range. What cannot be compared is not. -/
def expired (version range : String) : Work Bool := do
  match Version.satisfies version range with
  | .ok b => return b
  | .error .malformedBound => throw .badShape
  | .error .unreadable =>
    Work.record .warning
      ("Cannot compare version " ++ Text.quoted version ++ " against range " ++ Text.quoted range ++
        "; treating as unsatisfied")
    return false

section Builders
variable (o : Options) (site : PathId) (call : Tree Mark)

/-- The call of a helper, kept at hand. -/
def terminal (helper : String) (arguments : List Draft) : Work Ref := do
  let call ← Work.ofExcept (helperCall o helper arguments)
  Work.make fun w => w.hold call

def expandAssert : Work Unit := do
  let arguments ← Work.ofExcept (call.elementsOf "arguments")
  let terminal ← terminal o "assert" (arguments.map Tree.draft)
  let conditions ← (arguments.filter Node.isIdentifier).mapM fun a => Work.make fun w => w.hold a.copy
  register site (conditions ++ [terminal])

def expandWarn : Work Unit := do
  let arguments ← Work.ofExcept (call.elementsOf "arguments")
  register site [← terminal o "warn" (arguments.map Tree.draft)]

/-- A failure about the arguments of a deprecation. -/
def badDeprecation (line : Tree Mark) (reason : String) : Failure :=
  .badArguments "deprecate" reason (match line with
    | .null => none
    | l => some l.text)

/-- The predicate, the metadata and the message of a deprecation. -/
def readDeprecation : Except Failure (Tree Mark × Deprecation × Tree Mark) := do
  let arguments ← call.elementsOf "arguments"
  let line ← Node.line call
  match arguments with
  | message :: predicate :: details :: _ =>
    if ((Table.get? call.fields "arguments").map Tree.isObject).getD false then throw .badShape
    match ← Node.staticProperties details with
    | none => throw (badDeprecation line "meta information must be an object literal")
    | some properties =>
      let d ← Deprecation.ofProperties fun key => (Table.get? properties (.str key)).getD .null
      match ← Node.stringValue message with
      | .null => throw (badDeprecation line "message must be a string literal")
      | text => return (predicate, d, text)
  | _ =>
    let count := arguments.length
    throw (badDeprecation line s!"expected (message, predicate, meta), got {count} argument(s)")

/-- The package version has reached the range of a deprecation. An empty version is
none. -/
def reached (d : Deprecation) : Work Bool :=
  match o.packageVersion with
  | some version => if version = "" then return false else expired version d.till
  | none => return false

def expandDeprecate : Work Unit := do
  let (predicate, d, message) ← Work.ofExcept (readDeprecation call)
  if ← reached o d then
    Work.record .debug ("Removing expired deprecation " ++ d.id ++ " (until " ++ d.till ++ ")")
    Work.act fun w => w.remove site
  else
    let dialect ← Work.look fun w => .ok w.dialect
    let text := dialect.literal (.str (d.describe message.text))
    let terminal ← terminal o "deprecate" [text]
    register site [predicate.ref, terminal]

def Diagnostic.expand : Diagnostic → Work Unit
  | assertion => expandAssert o site call
  | warning => expandWarn o site call
  | deprecation => expandDeprecate o site call

end Builders

/-- Handles an expression statement and tells whether a builder took it. A helper that
is no diagnostic is an error in strict mode and passed over otherwise. -/
def dispatch (o : Options) (site : PathId) : Work Bool := do
  let call ← Work.ofExcept ((← Work.node site).get "expression")
  match ← Work.ofExcept (Node.calleeName call) with
  | .null => return false
  | name =>
    let key ← Work.ofExcept name.asKey
    match Table.get? (← get).helpers key with
    | none => return false
    | some helper =>
      match Diagnostic.ofName? helper.imported with
      | some d =>
        d.expand o site call
        return true
      | none =>
        if o.strict then throw (.unknownHelper helper.imported.text o.toolsSource)
        Work.record .warning
          ("Skipping call to '" ++ name.text ++ "': no debug macro named '" ++ helper.imported.text ++ "'")
        return false

end DebugGuards.Expansion
