import DebugGuards.Expansion.State
import DebugGuards.Options.Basic

/-! Flag imports become constants. Every name a declaration imports must be in the flag
table; this is checked for all of them before any constant is made. -/

namespace DebugGuards.Expansion

def flagDocument (flags : Table String Int) : Json := .obj () (Table.mapValues Tree.int flags)

def flagValue (table name : Json) : Except Failure Json :=
  match table, name with
  | .obj _ fields, .str k =>
    match Table.get? fields k with
    | some v => .ok v
    | none => .error (.missingKey k)
  | _, _ => .error .badShape

/-- One constant per specifier, in order. -/
def flagConstants (dialect : Dialect) (specifiers : List (Node.Specifier Unit)) (table source : Json) :
    Except Failure (List Json) := do
  specifiers.forM fun s => do
    if !(← table.holds s.imported) then throw (.unknownFlag s.imported.text source.text)
  specifiers.mapM fun s => do
    return Node.constant s.bound (dialect.literal (← flagValue table s.imported))

/-- Puts the constants in the place of an import declaration and counts them. -/
def placeConstants (site : PathId) (source : Json) (specifiers : List (Node.Specifier Unit)) (table : Json) :
    Work Nat := do
  let constants ← Work.look fun w => flagConstants w.dialect specifiers table source
  Work.act fun w => w.replaceMany site (constants.map Tree.copy)
  let count := constants.length
  Work.record .debug (s!"Inlined {count} flag(s) from " ++ source.text)
  return count

def inlineFlags (site : PathId) (table : Json) : Work Nat := do
  let declaration := (← Work.node site).erase
  let source ← Work.ofExcept (Node.importSource declaration)
  placeConstants site source (← Work.ofExcept (Node.specifiers declaration)) table

/-- The first table of feature flags for a module. -/
def featureTable? (features : List FeatureFlags) (source : Json) : Option FeatureFlags :=
  features.find? fun f => source.equal (.str f.source)

end DebugGuards.Expansion
