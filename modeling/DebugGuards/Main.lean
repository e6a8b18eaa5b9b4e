import DebugGuards.Command.Expand

/-! The program. It sees the files below the current directory, runs the command line on
them, writes the files that changed, and shows the log and the table on the error
stream. -/

namespace DebugGuards.Program
open Files

/-- The files below a directory. What cannot be read as text is left out. -/
partial def readBelow (folder : String) (place : Place) (s : Store) : IO Store := do
  let entries ← (← IO.FS.realPath folder).readDir
  entries.foldlM (fun s e => do
    let here := place ++ [e.fileName]
    let path := folder ++ "/" ++ e.fileName
    if ← e.path.isDir then readBelow path here { s with folders := here :: s.folders }
    else
      try
        let text ← IO.FS.readFile path
        return { s with files := (here, text) :: s.files }
      catch _ => return s) s

def writeFile (place : Place) (text : String) : IO Unit := do
  let route : Route := { names := place }
  IO.FS.createDirAll route.parent.text
  IO.FS.writeFile route.text text

def present (report : Command.Report) : IO Unit := do
  IO.print report.desk.output
  report.desk.console.log.forM fun r => IO.eprintln (r.level.name ++ " " ++ r.text)

def conclude : Except Failure Command.Verdict → IO UInt32
  | .ok v => do
    (v.table.getD []).forM fun row => IO.eprintln ("\t".intercalate row)
    return v.code.toUInt32
  | .error f => do
    IO.eprintln f.report
    return 1

end DebugGuards.Program

def main (line : List String) : IO UInt32 := do
  let store ← DebugGuards.Program.readBelow "." [] {}
  let report := DebugGuards.Command.run store line
  (report.desk.store.changedSince store).forM fun (place, text) =>
    DebugGuards.Program.writeFile place text
  DebugGuards.Program.present report
  DebugGuards.Program.conclude report.verdict
