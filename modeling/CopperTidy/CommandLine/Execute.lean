import CopperTidy.CommandLine.Arguments
import CopperTidy.CommandLine.Text
import CopperTidy.Report.Files

/-! # Running a command

A command gives an exit code and the texts for the two output streams. Wrong arguments give code 2,
a failure gives code 1; so does a board that needed cleaning, if that was asked for.
-/

namespace CopperTidy.CommandLine
set_option autoImplicit false

structure Outcome where
  code : UInt32
  output : String := ""
  errors : String := ""
  deriving DecidableEq, Repr

def version : String := "trackclean 0.1.0"

def usage : String :=
  "Usage: trackclean [-v] <clean FILE | project [DIR] | stats FILE> [options]"

/-- A failure with what the program was about. -/
def inContext (context : String) (f : Failure) : String := context ++ ": " ++ f.message

variable {m : Type → Type} [Monad m] (disk : Disk m)

/-- Failures as messages. -/
def report {α : Type} (message : Failure → String) (action : ExceptT Failure m α) :
    ExceptT String m α :=
  ExceptT.mk do return (← action.run).mapError message

def checkExtension (file : String) : ExceptT String m Unit := do
  if Path.extension? file != some "kicad_pcb" then throw "File must be a .kicad_pcb board"

/-- The options of a file, if one was given, less what the arguments switch off. -/
def optionsOf (passes : Passes) : ExceptT String m Options := do
  match passes.config with
  | none => return passes.allowed
  | some path =>
    let options ← report (inContext ("Failed to read options from " ++ path))
      (disk.loadOptions path)
    return options.restrict passes.allowed

def reportsText (format : Format) (reports : List Report) : String :=
  match format with
  | .human => String.join (reports.map reportText)
  | .json => line (Report.jsonOfAll reports).writePretty

/-- The exit code of a cleaning. -/
def codeOf (failOnChange : Bool) (reports : List Report) : UInt32 :=
  if failOnChange && reports.any (·.modified) then 1 else 0

/-- Output and exit code of a command. -/
def answer : Command → ExceptT String m (String × UInt32)
  | .clean file output dryRun passes format failOnChange => do
    checkExtension file
    let options ← optionsOf disk passes
    let one ← report Failure.message
      (if dryRun then disk.clean file options
        else disk.cleanTo file (output.getD file) options)
    return (reportsText format [one], codeOf failOnChange [one])
  | .project dir write passes format failOnChange => do
    let options ← optionsOf disk passes
    let all ← report (inContext ("Failed to clean project " ++ dir))
      (disk.cleanAll dir options write)
    return (reportsText format all, codeOf failOnChange all)
  | .stats file format => do
    checkExtension file
    let stats ← report Failure.message (disk.stats file)
    match format with
    | .human => return (statsText stats, 0)
    | .json => return (line stats.json.writePretty, 0)
  | .showVersion => return (line version, 0)
  | .showHelp => return (line usage, 0)

/-- Runs the program with the given arguments. -/
def execute (arguments : List String) : m Outcome := do
  match Command.read? arguments with
  | none => return { code := 2, errors := line usage }
  | some command =>
    match ← (answer disk command).run with
    | .ok (output, code) => return { code, output }
    | .error message => return { code := 1, errors := line ("Error: " ++ message) }

end CopperTidy.CommandLine
