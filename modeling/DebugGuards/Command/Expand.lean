import DebugGuards.Command.Arguments
import DebugGuards.Command.Markup
import DebugGuards.Console
import DebugGuards.Expansion.Run
import DebugGuards.Options.Load
import DebugGuards.Printing.Statement

/-! The expand command. It expands one module, or every module below a directory, and
writes the results. A module at fault is reported and left out, the others go on; any
other failure ends the command, and so does a record whose text is no markup. Several
modules are summed up in a table. -/

namespace DebugGuards.Command
open Files Expansion

/-- What a module's text becomes, and the records of its expansion. -/
def expandText (o : Options) (emitSource : Bool) (text : String) :
    Except Failure (Summary × String) × List Record :=
  match Json.read text with
  | .error f => (.error f, [])
  | .ok t =>
    let outcome := expandJson o t
    let written := do
      let summary ← outcome.result
      let output ← if emitSource then Printing.source outcome.tree
        else pure (Json.write outcome.tree ++ "\n")
      return (summary, output)
    (written, outcome.log)

/-- What the command works with: the files, the console and its plain output. -/
structure Desk where
  store : Store
  console : Console := {}
  output : String := ""

/-- A step of the command. The desk stays as it is at a failure. -/
abbrev Job := ExceptT Failure (StateM Desk)

namespace Job

def setVerbosity (verbose : Bool) : Job Unit :=
  modify fun d => { d with console := d.console.setVerbosity verbose }

/-- Puts a record on the console, where its text is shown as markup if it passes. -/
def put (r : Record) : Job Unit := do
  if (← get).console.threshold.passes r.level && !isMarkup r.text then throw .badShape
  modify fun d => { d with console := d.console.put r }

def read (r : Route) : Job String := do
  match (← get).store.read r with
  | .ok text => return text
  | .error f => throw f

def write (r : Route) (text : String) : Job Unit := do
  match (← get).store.write r text with
  | .ok store => modify fun d => { d with store }
  | .error f => throw f

def print (text : String) : Job Unit := modify fun d => { d with output := d.output ++ text }

end Job

section Module

/-- The record of a module at fault. -/
def faultRecord (source : Route) (f : Failure) : Record :=
  .error (escape source.name ++ ": " ++ escape f.report)

def successRecord (source target : Route) : Record :=
  .success ("Expanded " ++ escape source.name ++ " -> " ++ escape target.text)

/-- Expands the module in a file. The answer is none if the module is at fault, and then
nothing is written. -/
def expandFile (o : Options) (emitSource : Bool) (source : Route) (target : Option Route) :
    Job (Option Summary) := do
  let (result, log) := expandText o emitSource (← Job.read source)
  log.forM Job.put
  match result with
  | .error f =>
    if f.blamesModule then
      Job.put (faultRecord source f)
      return none
    else throw f
  | .ok (summary, output) =>
    match target with
    | some r =>
      Job.write r output
      Job.put (successRecord source r)
    | none => Job.print output
    return some summary

end Module

section Directory

def suffixOf (emitSource : Bool) : String := if emitSource then ".js" else ".json"

def targetOf (out : Route) (emitSource : Bool) (p : Place) : Route :=
  (out.enter p).withSuffix (suffixOf emitSource)

/-- Expands the modules at places below a directory, one after the other. -/
def expandModules (o : Options) (emitSource : Bool) (input out : Route) (modules : List Place) :
    Job (List (String × Option Summary)) :=
  modules.mapM fun p => do
    let result ← expandFile o emitSource (input.enter p) (some (targetOf out emitSource p))
    return ({ names := p : Route }.text, result)

end Directory

section Report

def summaryRow (name : String) (result : Option Summary) : List String :=
  let status := if result.isSome then "[green]ok[/green]" else "[red]failed[/red]"
  let s := result.getD {}
  [escape name, status, toString s.expanded, toString s.removed, toString s.inlined]

/-- The title, the head and the rows of the table that sums up several modules. -/
def summaryTable (results : List (String × Option Summary)) : Option (List (List String)) :=
  if results.length < 2 then none else
    some (["Macro Expansion Summary"] :: ["Module", "Status", "Expanded", "Removed", "Flags"] ::
      results.map fun (name, result) => summaryRow name result)

/-- How the command ended: its exit code and the table, if there is one. -/
structure Verdict where
  code : Nat
  table : Option (List (List String)) := none

def verdictOf (results : List (String × Option Summary)) : Verdict :=
  ⟨if results.all (·.2.isSome) then 0 else 1, summaryTable results⟩

end Report

/-- The settings given on the command line. -/
def Request.overrides (q : Request) : Options.Overrides :=
  { packageVersion := q.packageVersion.map Tree.str
    externalize := if q.externalize then some (.bool true) else none
    strict := if q.strict then some (.bool true) else none
    helpersModule := q.helpersModule.map Tree.str
    helpersGlobal := q.helpersGlobal.map Tree.str }

/-- Expands what a path leads to. -/
def expandInput (q : Request) (o : Options) (place : Place) (isFile : Bool) : Job Verdict := do
  if isFile then
    return verdictOf [(q.input.name, ← expandFile o q.emitSource q.input q.out)]
  match q.out with
  | none =>
    Job.put (.error "Directory expansion requires --out destination directory.")
    return ⟨1, none⟩
  | some out =>
    let modules := (← get).store.below place ".json"
    if modules.isEmpty then
      Job.put (.warning ("No .json files found in " ++ escape q.input.text))
      return ⟨0, none⟩
    let count := modules.length
    Job.put (.info (s!"Processing {count} modules from " ++ escape q.input.text ++ "..."))
    return verdictOf (← expandModules o q.emitSource q.input out modules)

def runExpand (q : Request) : Job Verdict := do
  Job.setVerbosity q.verbose
  let store := (← get).store
  match store.find? q.input with
  | none =>
    Job.put (.error ("Input not found: " ++ escape q.input.text))
    return ⟨1, none⟩
  | some place =>
    let isFile := store.isFile place
    let start := if isFile then q.input.parent else q.input
    match Options.load store start q.config q.overrides with
    | .ok o => expandInput q o place isFile
    | .error f =>
      if f.blamesSettings then
        Job.put (.error (escape f.report))
        return ⟨1, none⟩
      else throw f

/-- What a run of the program leaves behind. -/
structure Report where
  verdict : Except Failure Verdict
  desk : Desk

def versionText : String := "debug-macros 0.1.0\n"

def run (store : Store) (line : List String) : Report :=
  match readLine line with
  | .misuse => ⟨.ok ⟨2, none⟩, { store }⟩
  | .help => ⟨.ok ⟨0, none⟩, { store }⟩
  | .version => ⟨.ok ⟨0, none⟩, { store, output := versionText }⟩
  | .expand q =>
    let (verdict, desk) := (runExpand q).run.run { store }
    ⟨verdict, desk⟩

end DebugGuards.Command
