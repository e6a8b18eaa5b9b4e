import DebugGuards.Text.Quoted

/-! Why an operation stops. Each failure is a cause; its wording is given once, by
`Failure.message`. A failure about the shape of a document or the form of a file has
no wording of its own. -/

namespace DebugGuards

/-- What is wrong with one option. -/
inductive Defect where
  | notModel
  | notList
  | notTable
  | notText
  | missing
  | unknownOption
  | notInteger
  | unreadableInteger
  | fractionalInteger
  | oversizedInteger
  | notBoolean
  | unreadableBoolean
deriving DecidableEq

def Defect.code : Defect → String
  | notModel => "model_type"
  | notList => "list_type"
  | notTable => "dict_type"
  | notText => "string_type"
  | missing => "missing"
  | unknownOption => "extra_forbidden"
  | notInteger => "int_type"
  | unreadableInteger => "int_parsing"
  | fractionalInteger => "int_from_float"
  | oversizedInteger => "int_parsing_size"
  | notBoolean => "bool_type"
  | unreadableBoolean => "bool_parsing"

/-- A step from an options document to one of its parts. -/
inductive Step where
  | key (name : String)
  | index (i : Nat)
deriving DecidableEq

/-- A defect and where it is. -/
structure Issue where
  place : List Step
  defect : Defect
deriving DecidableEq

inductive Failure where
  /-- A part of a document has the wrong kind, or a text that is shown is no markup. -/
  | badShape
  | missingKey (key : String)
  | unsupportedStatement (kind : String)
  | unsupportedExpression (kind : String)
  /-- A statement whose printing never ends. -/
  | endless
  | notProgram (kind : String)
  | unknownFlag (flag source : String)
  | incompleteMeta (field : String)
  | badArguments (helper reason : String) (line : Option String)
  | unknownHelper (imported source : String)
  | detached (kind : String)
  | replaceRoot
  | removeRoot
  | outsideList
  | lateRegistration
  | finalizedTwice
  | unreadableJson
  | unreadableToml
  | noSuchFile (path : String)
  | isDirectory (path : String)
  | notDirectory (path : String)
  | fileExists (path : String)
  | invalidOptions (issues : List Issue)
deriving DecidableEq

def Failure.message : Failure → Option String
  | badShape | unreadableJson | unreadableToml => none
  | missingKey key => some key
  | unsupportedStatement kind => some s!"Unsupported statement type: {kind}"
  | unsupportedExpression kind => some s!"Unsupported expression type: {kind}"
  | endless => some "maximum recursion depth exceeded"
  | notProgram kind => some s!"Expected an ESTree Program, got {kind}"
  | unknownFlag flag source =>
    some s!"Imported {flag} from {source} which is not a supported flag."
  | incompleteMeta field =>
    some s!"deprecate's meta information requires an \"{field}\" field."
  | badArguments helper reason line =>
    let place := match line with
      | some l => s!" (line {l})"
      | none => ""
    some s!"{helper}(){place}: {reason}"
  | unknownHelper imported source =>
    some s!"'{imported}' imported from {source} is not a supported debug macro."
  | detached kind => some s!"{kind} node is no longer attached to its parent"
  | replaceRoot => some "Cannot replace the root node"
  | removeRoot => some "Cannot remove the root node"
  | outsideList => some "replace_with_multiple requires a statement list container"
  | lateRegistration => some "Cannot register expansions after finalization"
  | finalizedTwice => some "Expansions were already finalized for this module"
  | noSuchFile path => some ("[Errno 2] No such file or directory: " ++ Text.quoted path)
  | isDirectory path => some ("[Errno 21] Is a directory: " ++ Text.quoted path)
  | notDirectory path => some ("[Errno 20] Not a directory: " ++ Text.quoted path)
  | fileExists path => some ("[Errno 17] File exists: " ++ Text.quoted path)
  | invalidOptions _ => some "Invalid debug-macros configuration"

namespace Failure

/-- The text under which a failure is logged. A file that cannot be read is reported by
the format it was taken for. -/
def report (f : Failure) : String :=
  match f with
  | unreadableJson => "JSONDecodeError"
  | unreadableToml => "TOMLDecodeError"
  | _ => f.message.getD ""

/-- Whether a failure is the fault of the module expanded: its text, a helper or a flag
it imports, or a part of it that has no printed form. -/
def blamesModule : Failure → Bool
  | unreadableJson | notProgram _ | unknownFlag _ _ | incompleteMeta _ | badArguments _ _ _
  | unknownHelper _ _ | unsupportedStatement _ | unsupportedExpression _ => true
  | _ => false

/-- Whether a failure is the fault of the settings: a file of them that is not there or
cannot be read, or options that are not accepted. -/
def blamesSettings : Failure → Bool
  | unreadableJson | unreadableToml | invalidOptions _ | noSuchFile _ | isDirectory _
  | notDirectory _ => true
  | _ => false

end Failure

end DebugGuards
