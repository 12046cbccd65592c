import CopperTidy.Files.Basic
import CopperTidy.Report.Basic

/-! # Working on files

Loading, saving and cleaning of board files on a disk. A file that is cleaned in place is only
written if the cleaning changed something.
-/

namespace CopperTidy
set_option autoImplicit false

inductive Failure
  /-- A file could not be read or written. -/
  | io
  | parse (cause : DesignError)
  /-- A file of options is not right. -/
  | config

/-- The message of a failure; what the system or the JSON text has to say is not known here. -/
def Failure.message : Failure → String
  | .io => "IO error:"
  | .parse cause => "Parse error: " ++ cause.message
  | .config => "Invalid configuration:"

namespace Disk

variable {m : Type → Type} [Monad m] (disk : Disk m)

def text (path : String) : ExceptT Failure m String := do
  match ← disk.readText path with
  | some text => return text
  | none => throw .io

def save (path text : String) : ExceptT Failure m Unit := do
  if !(← disk.writeText path text) then throw .io

def loadOptions (path : String) : ExceptT Failure m Options := do
  match Options.read? (← disk.text path) with
  | some options => return options
  | none => throw .config

def lift {α : Type} (result : Except DesignError α) : ExceptT Failure m α :=
  match result with
  | .ok x => return x
  | .error e => throw (.parse e)

def loadDesign (path : String) : ExceptT Failure m Design := do
  lift (Design.read ((Path.fileName? path).getD "") (← disk.text path))

def loadDocument (path : String) : ExceptT Failure m Document := do
  let document ← lift (Document.read ((Path.fileName? path).getD "") (← disk.text path))
  return { document with path := some path }

/-! ## Finding board files -/

/-- Directories that are not searched. -/
def skipped (name : String) : Bool :=
  name.toList.head? = some '.' || name = "target" || "-backups".toList.isSuffixOf name.toList

/-- Board files below a directory, `depth` levels of directories deep. -/
def boardsBelow (depth : Nat) (dir : String) : ExceptT Failure m (List String) := do
  match depth with
  | 0 => return []
  | depth + 1 =>
    match ← disk.list dir with
    | none => throw .io
    | some entries =>
      let found ← entries.mapM fun (name, kind) => do
        let path := Path.join dir name
        match kind with
        | .directory => if skipped name then return [] else boardsBelow depth path
        | .file => return if Path.extension? path = some "kicad_pcb" then [path] else []
        | .other => return []
      return found.flatten

/-- Board files below a directory, in the order of their paths. -/
def boards (dir : String) : ExceptT Failure m (List String) := do
  return Path.sort (← boardsBelow disk 21 dir)

/-! ## Cleaning -/

/-- Cleans the board of a file in memory; gives the report and the document in line with it. -/
def cleanBoard (path : String) (options : Options) : ExceptT Failure m (Report × Document) := do
  let document ← disk.loadDocument path
  let loaded := document.toBoard
  let cleaned := loaded.board.clean options
  let report := Report.of path options document.design loaded.board cleaned
  if cleaned.modified then
    let (document, result) := document.apply { loaded with board := cleaned.board }
    let _ ← lift result
    return (report, document)
  else return (report, document)

/-- What a cleaning of a file would do. -/
def clean (path : String) (options : Options) : ExceptT Failure m Report := do
  return (← disk.cleanBoard path options).1

/-- Cleans a file and saves the result to `output`, which may be the file itself. -/
def cleanTo (path output : String) (options : Options) : ExceptT Failure m Report := do
  let (report, document) ← disk.cleanBoard path options
  if report.modified || !Path.same output path then
    disk.save output document.toText
    return { report with written := some output }
  else return report

/-- Cleans every board file below a directory, in place if `write` says so. -/
def cleanAll (dir : String) (options : Options) (write : Bool) :
    ExceptT Failure m (List Report) := do
  (← disk.boards dir).mapM fun path =>
    if write then disk.cleanTo path path options else disk.clean path options

def stats (path : String) : ExceptT Failure m BoardStats := do
  let document ← disk.loadDocument path
  return .of path document.design document.toBoard.board

end Disk
end CopperTidy
