/-! # Paths and disks

A path is kept as it was given, since it is shown so. Two paths are compared by their components:
repeated separators do not count, nor does a `.` after the first component.

A `Disk` is what the program wants from a file system. The operations live in a monad of their own,
so that the same program runs on real files and on a tree of files in memory.
-/

namespace CopperTidy
set_option autoImplicit false

namespace Path

inductive Component
  | root
  | current
  | parent
  | name (text : String)
  deriving DecidableEq, Repr

/-- The texts before, between and after separators, without empty ones. -/
def pieces (path : String) : List String := (path.splitOn "/").filter (· != "")

def component? (piece : String) : Option Component :=
  if piece = "." then none
  else if piece = ".." then some .parent
  else some (.name piece)

def components (path : String) : List Component :=
  let all := pieces path
  let rest := all.filterMap component?
  if path.toList.head? = some '/' then .root :: rest
  else if all.head? = some "." then .current :: rest
  else rest

/-- Do two paths have the same components? -/
def same (p q : String) : Bool := components p == components q

/-! ## Order -/

def Component.rank : Component → Nat
  | .root => 0
  | .current => 1
  | .parent => 2
  | .name _ => 3

def Component.text : Component → String
  | .name s => s
  | _ => ""

def Component.less (a b : Component) : Bool :=
  a.rank < b.rank || (a.rank == b.rank && a.text < b.text)

/-- Component by component; a path comes before its continuations. -/
def precedes : List Component → List Component → Bool
  | [], _ => true
  | _ :: _, [] => false
  | a :: p, b :: q => a.less b || (a == b && precedes p q)

def sort (paths : List String) : List String :=
  paths.mergeSort fun p q => precedes (components p) (components q)

/-! ## Names -/

/-- The last component, if it is a name. -/
def fileName? (path : String) : Option String :=
  match (components path).getLast? with
  | some (.name s) => some s
  | _ => none

/-- What follows the last point of a file name; a point at its start does not count. -/
def extension? (path : String) : Option String :=
  match fileName? path with
  | none => none
  | some name =>
    let cs := name.toList
    let after := (cs.reverse.takeWhile (· != '.')).reverse
    if cs.length ≤ after.length + 1 then none else some (String.ofList after)

/-- The path of an entry of a directory. -/
def join (dir name : String) : String :=
  match dir.toList.getLast? with
  | none | some '/' => dir ++ name
  | some _ => dir ++ "/" ++ name

end Path

/-! ## Disks -/

inductive EntryKind
  | directory
  | file
  | other
  deriving DecidableEq, Repr

structure Disk (m : Type → Type) where
  /-- The text of a file; there is none if it cannot be read, or is not UTF-8. -/
  readText : (path : String) → m (Option String)
  /-- Creates or replaces a file; tells whether that was possible. -/
  writeText : (path text : String) → m Bool
  /-- Names of the entries of a directory, in any order; there are none if it cannot be read. -/
  list : (path : String) → m (Option (List (String × EntryKind)))

end CopperTidy
