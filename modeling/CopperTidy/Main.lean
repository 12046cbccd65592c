import CopperTidy.CommandLine.Execute

/-! # The program

Runs the command line on the files of the system.
-/

namespace CopperTidy
set_option autoImplicit false

/-- The result of an action, if it does not fail. -/
def attempt {α : Type} (action : IO α) : IO (Option α) := do
  try return some (← action)
  catch _ => return none

/-- What an entry of a directory is; an entry that cannot be looked at is neither a file nor a
directory. -/
def kindOf (entry : IO.FS.DirEntry) : IO EntryKind := do
  match ← attempt entry.path.metadata with
  | some data =>
    return match data.type with
      | .dir => .directory
      | .file => .file
      | _ => .other
  | none => return .other

/-- Entries of a directory with their names. -/
def entriesOf (path : String) : IO (List (String × EntryKind)) := do
  let entries ← (← IO.FS.realPath path).readDir
  entries.toList.mapM fun entry => return (entry.fileName, ← kindOf entry)

/-- The files of the system. -/
def systemDisk : Disk IO where
  readText path := attempt (IO.FS.readFile path)
  writeText path text := return (← attempt (IO.FS.writeFile path text)).isSome
  list path := attempt (entriesOf path)

end CopperTidy

def main (arguments : List String) : IO UInt32 := do
  let outcome ← CopperTidy.CommandLine.execute CopperTidy.systemDisk arguments
  IO.print outcome.output
  IO.eprint outcome.errors
  return outcome.code
