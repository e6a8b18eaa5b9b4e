import DebugGuards.Options.Basic

/-! Checking options documents. A check gives a value and the issues found, so that all
issues of a document are reported: those of the fields in their own order, then the
unknown keys in the order of the document. A field may go by its name in either
spelling; when both are there the first spelling counts and the second is unknown. -/

namespace DebugGuards.Check

/-- A value, to be used only if there are no issues. -/
structure Checked (α : Type) where
  value : α
  issues : List Issue := []

namespace Checked

variable {α β : Type}

def fail [Inhabited α] (place : List Step) (defect : Defect) : Checked α := ⟨default, [⟨place, defect⟩]⟩

def map (f : α → β) (c : Checked α) : Checked β := ⟨f c.value, c.issues⟩

end Checked

/-- A check of a part at a place. -/
abbrev Checker (α : Type) := List Step → Json → Checked α

section Texts

def text : Checker String
  | _, .str s => ⟨s, []⟩
  | place, _ => .fail place .notText

def optionalText : Checker (Option String)
  | _, .null => ⟨none, []⟩
  | place, t => (text place t).map some

end Texts

section Integers

/-- Digits with single underscores between them. -/
def groupedDigits? (cs : List Char) : Option (List Char) :=
  if (Text.split ['_'] cs).all fun p => !p.isEmpty && p.all Char.isDigit then
    some (cs.filter Char.isDigit) else none

/-- An integer as text: blanks around it, a sign, digits, and a fraction of zeros. -/
def integerOf? (s : String) : Option Int := do
  let cs := Text.trim Text.isSpace s.toList
  let (negative, cs) := match cs with
    | '-' :: rest => (true, rest)
    | '+' :: rest => (false, rest)
    | _ => (false, cs)
  let whole := cs.takeWhile (· ≠ '.')
  let fraction := cs.dropWhile (· ≠ '.')
  if fraction.length = 1 || !(fraction.drop 1).all (· == '0') then none
  let digits ← groupedDigits? whole
  let n := digits.foldl (fun n c => 10 * n + (c.toNat - '0'.toNat)) 0
  return if negative then -(n : Int) else n

/-- A number with a point is an integer of at most 64 bits, one of them for the sign. -/
def wordBound : Int := 9223372036854775808

def integer : Checker Int
  | _, .int i => ⟨i, []⟩
  | _, .bool b => ⟨if b then 1 else 0, []⟩
  | place, .float x =>
    match x.toInt? with
    | some i => if -wordBound ≤ i && i < wordBound then ⟨i, []⟩ else .fail place .oversizedInteger
    | none => .fail place .fractionalInteger
  | place, .str s =>
    match integerOf? s with
    | some i => ⟨i, []⟩
    | none => .fail place .unreadableInteger
  | place, _ => .fail place .notInteger

end Integers

section Booleans

def trueWords : List String := ["1", "true", "t", "yes", "y", "on"]

def falseWords : List String := ["0", "false", "f", "no", "n", "off"]

def wholeBoolean (place : List Step) (i : Int) : Checked Bool :=
  if i = 0 then ⟨false, []⟩ else if i = 1 then ⟨true, []⟩ else .fail place .unreadableBoolean

def boolean : Checker Bool
  | _, .bool b => ⟨b, []⟩
  | place, .int i => wholeBoolean place i
  | place, .float x =>
    match x.toInt? with
    | some i => wholeBoolean place i
    | none => .fail place .notBoolean
  | place, .str s =>
    let s := s.map Char.toLower
    if trueWords.contains s then ⟨true, []⟩
    else if falseWords.contains s then ⟨false, []⟩
    else .fail place .unreadableBoolean
  | place, _ => .fail place .notBoolean

/-- Null, a boolean or a text as it is; a number as a boolean. -/
def helperModule : Checker HelperModule
  | _, .null => ⟨.unset, []⟩
  | _, .bool b => ⟨.keep b, []⟩
  | _, .str s => ⟨.redirect s, []⟩
  | place, t =>
    let b := boolean (place ++ [.key "bool"]) t
    if b.issues.isEmpty then b.map .keep
    else ⟨.unset, b.issues ++ [⟨place ++ [.key "str"], .notText⟩]⟩

end Booleans

section Models

/-- A field by its two spellings: the one used and its value. -/
def spelled? (fields : Table String Json) (name other : String) : Option (String × Json) :=
  match Table.get? fields name with
  | some v => some (name, v)
  | none => (Table.get? fields other).map fun v => (other, v)

def fieldOr {α : Type} (place : List Step) (fields : Table String Json) (name other : String)
    (usual : α) (check : Checker α) : Checked α :=
  match spelled? fields name other with
  | some (key, v) => check (place ++ [.key key]) v
  | none => ⟨usual, []⟩

/-- The issues of the keys that no field uses. -/
def unknownKeys (place : List Step) (fields : Table String Json) (names : List (String × String)) :
    List Issue :=
  let used := names.filterMap fun (name, other) => (spelled? fields name other).map Prod.fst
  ((Table.keys fields).filter fun k => !used.contains k).map fun k =>
    ⟨place ++ [Step.key k], .unknownOption⟩

def model {α : Type} [Inhabited α] (check : List Step → Table String Json → Checked α) : Checker α
  | place, .obj _ fields => check place fields
  | place, _ => .fail place .notModel

def flags : Checker (Table String Int)
  | place, .obj _ fields =>
    let entries := fields.map fun (k, v) => (k, integer (place ++ [Step.key k]) v)
    ⟨entries.map fun (k, c) => (k, c.value), entries.flatMap fun (_, c) => c.issues⟩
  | place, _ => .fail place .notTable

def listOf {α : Type} (check : Checker α) : Checker (List α)
  | place, .arr _ items =>
    let entries := items.zipIdx.map fun (t, i) => check (place ++ [.index i]) t
    ⟨entries.map Checked.value, entries.flatMap Checked.issues⟩
  | place, _ => .fail place .notList

def envFlags : Checker EnvFlags := model fun place fields =>
  let usual : EnvFlags := {}
  let source := fieldOr place fields "source" "source" usual.source text
  let table := fieldOr place fields "flags" "flags" usual.flags flags
  ⟨⟨source.value, table.value⟩,
    source.issues ++ table.issues ++
      unknownKeys place fields [("source", "source"), ("flags", "flags")]⟩

def featureFlags : Checker FeatureFlags := model fun place fields =>
  let source : Checked String := match spelled? fields "featuresImport" "features_import" with
    | some (key, v) => text (place ++ [.key key]) v
    | none => .fail (place ++ [.key "featuresImport"]) .missing
  let table := fieldOr place fields "flags" "flags" [] flags
  ⟨⟨source.value, table.value⟩,
    source.issues ++ table.issues ++
      unknownKeys place fields [("featuresImport", "features_import"), ("flags", "flags")]⟩

def debugTools : Checker String := model fun place fields =>
  let usual : Options := {}
  let source := fieldOr place fields "source" "source" usual.toolsSource text
  ⟨source.value, source.issues ++ unknownKeys place fields [("source", "source")]⟩

def helpers : Checker Helpers := model fun place fields =>
  let module := fieldOr place fields "module" "module" .unset helperModule
  let global := fieldOr place fields "global" "global_" none optionalText
  ⟨⟨module.value, global.value⟩,
    module.issues ++ global.issues ++
      unknownKeys place fields [("module", "module"), ("global", "global_")]⟩

/-- The two spellings of each option. -/
def optionNames : List (String × String) :=
  [("packageVersion", "package_version"), ("envFlags", "env_flags"), ("features", "features"),
    ("debugTools", "debug_tools"), ("externalizeHelpers", "externalize_helpers"),
    ("helpers", "helpers"), ("strictMode", "strict_mode")]

def options : Checker Options := model fun place fields =>
  let usual : Options := {}
  let version := fieldOr place fields "packageVersion" "package_version" usual.packageVersion optionalText
  let env := fieldOr place fields "envFlags" "env_flags" usual.envFlags envFlags
  let features := fieldOr place fields "features" "features" usual.features (listOf featureFlags)
  let tools := fieldOr place fields "debugTools" "debug_tools" usual.toolsSource debugTools
  let external :=
    fieldOr place fields "externalizeHelpers" "externalize_helpers" usual.externalize boolean
  let helpers := fieldOr place fields "helpers" "helpers" usual.helpers helpers
  let strict := fieldOr place fields "strictMode" "strict_mode" usual.strict boolean
  ⟨⟨version.value, env.value, features.value, tools.value, external.value, helpers.value, strict.value⟩,
    version.issues ++ env.issues ++ features.issues ++ tools.issues ++ external.issues ++
      helpers.issues ++ strict.issues ++ unknownKeys place fields optionNames⟩

end Models

section Shorthand

/-- The fields of what helpers are already given; nothing and false count as none. -/
def givenHelpers (fields : Table String Json) : Except Failure (Table String Json) :=
  match (Table.get? fields "helpers").getD .null with
  | .obj _ given => .ok given
  | t => if t.truth then .error .badShape else .ok []

/-- Later entries over earlier ones. -/
def overlay (base extra : Table String Json) : Table String Json :=
  extra.foldl (fun t e => Table.set t e.1 e.2) base

/-- An object under the externalization option stands for `true` and goes over the
helpers. -/
def unfoldAt (key : String) (fields : Table String Json) : Except Failure (Table String Json) :=
  match Table.get? fields key with
  | some (.obj _ value) => do
    let given ← givenHelpers fields
    return Table.set (Table.set fields key (.bool true)) "helpers" (.obj () (overlay given value))
  | _ => .ok fields

/-- The document without the shorthand, in either spelling. -/
def unfold : Json → Except Failure Json
  | .obj m fields => do
    let fields ← unfoldAt "externalizeHelpers" fields
    return .obj m (← unfoldAt "externalize_helpers" fields)
  | t => .ok t

end Shorthand

end DebugGuards.Check

namespace DebugGuards.Options

def ofJson (t : Json) : Except Failure Options := do
  let checked := Check.options [] (← Check.unfold t)
  if checked.issues.isEmpty then return checked.value else .error (.invalidOptions checked.issues)

def helpersOfJson (t : Json) : Except Failure Helpers :=
  let checked := Check.helpers [] t
  if checked.issues.isEmpty then .ok checked.value else .error (.invalidOptions checked.issues)

/-- Helpers as a document, unset fields left out. -/
def helpersJson (h : Helpers) : Json :=
  let module : List (String × Json) := match h.module with
    | .unset => []
    | .keep b => [("module", .bool b)]
    | .redirect s => [("module", .str s)]
  .obj () (module ++ (h.global.map fun g => ("global", .str g)).toList)

end DebugGuards.Options
