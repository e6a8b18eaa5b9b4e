import DebugGuards.Expansion.Diagnostic
import DebugGuards.Expansion.Flags
import DebugGuards.Json.Reader
import DebugGuards.Json.Writer

/-! The expansion of a module. The helpers imported are collected, every call site is
dispatched in source order, the guard is found or made and the sites put under it, the
flag imports left are inlined, and the helpers import is taken out, redirected or
kept. -/

namespace DebugGuards.Expansion

/-- What became of the helpers import. -/
inductive ImportFate where
  | removed | redirected | kept
deriving DecidableEq

def ImportFate.name : ImportFate → String
  | removed => "removed"
  | redirected => "rewritten"
  | kept => "kept"

structure Summary where
  guard : Option String := none
  synthesized : Bool := false
  expanded : Nat := 0
  removed : Nat := 0
  inlined : Nat := 0
  helpersImport : Option ImportFate := none
deriving DecidableEq

section Phases
variable (o : Options)

def importSites : Work (List PathId) := do
  let paths ← Work.look Workspace.importPaths
  paths.mapM fun p => Work.make fun w => w.addPath p

/-- Collects the helpers from an import, if it is one of the tools module. -/
def collectSite (site : PathId) : Work Unit := do
  let declaration := (← Work.node site).erase
  let source ← Work.ofExcept (Node.importSource declaration)
  if source.equal (.str o.toolsSource) then
    (← Work.ofExcept (Node.specifiers declaration)).forM fun s => addHelper s.imported s.bound

def collectHelpers : Work Unit := do
  (← importSites).forM (collectSite o)
  let count := (← get).helpers.length
  Work.record .debug (s!"Collected {count} helper binding(s) from " ++ o.toolsSource)

/-- Dispatches a statement if it is still attached and counts it if a builder took it. -/
def dispatchSite (handled : Nat) (site : PathId × Visit) : Work Nat := do
  if !(← get).workspace.attached site.1 then return handled
  return if ← dispatch o site.1 then handled + 1 else handled

def dispatchAll : Work Nat := do
  let sites ← Work.make fun w => w.collect ["ExpressionStatement"]
  sites.foldlM (dispatchSite o) 0

/-- The declaration that binds the debug flag, if it imports it from the flags
module. -/
def debugImport? : Work (Option PathId) := do
  match ← Work.look fun w => w.binding? (.str debugFlag) with
  | none => return none
  | some b =>
    let fromFlags := match b.kind with
      | .str "module" => do
        return (← Work.look fun w => w.bindingSource b).equal (.str o.envFlags.source)
      | _ => pure false
    if ← fromFlags then return some (← Work.make fun w => w.addPath b.path) else return none

/-- Finds or makes the guard and puts the registered sites under it. -/
def resolveGuard (summary : Summary) : Work Summary := do
  match ← debugImport? o with
  | some site =>
    let inlined ← inlineFlags site (flagDocument o.envFlags.flags)
    let _ ← finalize (.str debugFlag)
    return { summary with guard := some debugFlag, inlined := summary.inlined + inlined }
  | none =>
    let name ← Work.look fun w => w.freshName debugFlag
    if (← get).pending.isEmpty then
      let _ ← finalize (.str name)
      return summary
    match Table.get? o.envFlags.flags debugFlag with
    | none => throw (.unknownFlag debugFlag o.envFlags.source)
    | some value =>
      Work.act fun w => w.insertTop (Node.constant (.str name) (w.dialect.literal (.int value)))
      let _ ← finalize (.str name)
      return { summary with guard := some name, synthesized := true }

/-- Inlines an import, if it is from the flags module or a feature module, and counts the
constants. -/
def inlineSite (count : Nat) (site : PathId) : Work Nat := do
  let source ← Work.ofExcept (Node.importSource (← Work.node site).erase)
  if source.equal (.str o.envFlags.source) then
    return count + (← inlineFlags site (flagDocument o.envFlags.flags))
  match featureTable? o.features source with
  | some f => return count + (← inlineFlags site (flagDocument f.flags))
  | none => return count

def inlineImports : Work Nat := do
  (← importSites).foldlM (inlineSite o) 0

def removeSite (site : PathId) : Work (Option ImportFate) := do
  Work.act fun w => w.remove site
  return some .removed

/-- What is done with the import of the first helper. -/
def cleanSite (module? : HelperModule) (site : PathId) : Work (Option ImportFate) :=
  match module? with
  | .redirect module =>
    if module = "" then removeSite site
    else do
      Work.act fun w => w.setField site "source" (w.dialect.literal (.str module))
      return some .redirected
  | .keep true => return some .kept
  | .keep false | .unset => removeSite site

/-- Takes the import of the first helper out, redirects it or keeps it. -/
def cleanImports : Work (Option ImportFate) := do
  match (← get).helpers.head? with
  | none => return none
  | some (_, first) =>
    match ← Work.look fun w => do return Table.get? (← w.bindings) (← first.bound.asKey) with
    | none => return none
    | some b =>
      cleanSite o.helpersModule (← Work.make fun w => w.addPath b.path)

/-- What an expansion does once the statements are dispatched. -/
def conclude (handled : Nat) : Work Summary := do
  let expanded := (← get).pending.length
  let summary ← resolveGuard o { expanded := expanded, removed := handled - expanded }
  let inlined ← inlineImports o
  let fate ← cleanImports o
  return { summary with inlined := summary.inlined + inlined, helpersImport := fate }

def run : Work Summary := do
  collectHelpers o
  conclude o (← dispatchAll o)

end Phases

/-- What an expansion leaves behind, whether it succeeded or not. -/
structure Outcome where
  result : Except Failure Summary
  tree : Tree Mark
  fresh : Mark
  log : List Record

def expand (o : Options) (t : Tree Mark) (fresh : Mark) : Outcome :=
  match Workspace.ofTree t fresh with
  | .error f => ⟨.error f, t, fresh, []⟩
  | .ok w =>
    let (result, s) := (run o).run.run { workspace := w }
    ⟨result, s.workspace.root, s.workspace.fresh, s.log⟩

/-- Expands a plain document once. -/
def expandJson (o : Options) (t : Json) : Outcome :=
  let (t, fresh) := t.copy.settle 0
  expand o t fresh

/-- Expands a module given as JSON text, and writes it as such. -/
def expandSource (o : Options) (text : String) : Except Failure String := do
  let outcome := expandJson o (← Json.read text)
  outcome.result.map fun _ => Json.write outcome.tree

end DebugGuards.Expansion
