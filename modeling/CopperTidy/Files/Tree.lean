import CopperTidy.Files.Basic

/-! # Files in memory

A tree of directories and files, and the disk made of it. Paths are relative to the root of the
tree, above which there is nothing.
-/

namespace CopperTidy
set_option autoImplicit false

inductive FileTree
  | file (content : ByteArray)
  | directory (entries : List (String × FileTree))

namespace FileTree

def empty : FileTree := .directory []

def isDirectory : FileTree → Bool
  | .directory _ => true
  | .file _ => false

/-! ## Looking up and changing -/

def find? (tree : FileTree) : List String → Option FileTree
  | [] => some tree
  | name :: rest =>
    match tree with
    | .directory entries => (entries.lookup name).bind fun child => child.find? rest
    | .file _ => none

/-- The entries with one of them set; a new one comes last. -/
def setEntry (name : String) (child : FileTree) :
    List (String × FileTree) → List (String × FileTree)
  | [] => [(name, child)]
  | (key, old) :: rest =>
    if key = name then (name, child) :: rest else (key, old) :: setEntry name child rest

/-- The tree with a node put at a place. Missing directories on the way are made, and what is no
directory is replaced by one. -/
def put (tree : FileTree) (node : FileTree) : List String → FileTree
  | [] => node
  | name :: rest =>
    let entries := match tree with
      | .directory entries => entries
      | .file _ => []
    .directory (setEntry name (((entries.lookup name).getD empty).put node rest) entries)

mutual

/-- Every file below a place, with its path. -/
def filesBelow (place : String) : FileTree → List (String × ByteArray)
  | .file content => [(place, content)]
  | .directory entries => entryFiles place entries

def entryFiles (place : String) : List (String × FileTree) → List (String × ByteArray)
  | [] => []
  | (name, child) :: rest =>
    filesBelow (if place = "" then name else place ++ "/" ++ name) child ++ entryFiles place rest

end

def files (tree : FileTree) : List (String × ByteArray) := tree.filesBelow ""

/-! ## Paths -/

/-- The place that a path leads to, last name first, from the place `here`. Every name but the last
must be a directory, and so must the last if anything follows it. -/
def walk (tree : FileTree) (here : List String) : List String → Option (List String)
  | [] => some here
  | piece :: rest =>
    if ((tree.find? here.reverse).any isDirectory) then
      if piece = "" || piece = "." then walk tree here rest
      else if piece = ".." then
        match here with
        | [] => none
        | _ :: above => walk tree above rest
      else walk tree (piece :: here) rest
    else none

/-- A longer name is refused by file systems. -/
def longestName : Nat := 255

/-- The place of a path, from the root of the tree. -/
def place? (tree : FileTree) (path : String) : Option (List String) :=
  let pieces := path.splitOn "/"
  if path = "" || path.toList.head? = some '/' || path.toList.contains '\x00'
      || pieces.any (fun piece => longestName < piece.utf8ByteSize) then none
  else (tree.walk [] pieces).map List.reverse

def readText? (tree : FileTree) (path : String) : Option String :=
  match (tree.place? path).bind tree.find? with
  | some (.file content) => String.fromUTF8? content
  | _ => none

/-- The tree with a file written; its directory must be there, and no directory in its place. -/
def writeText? (tree : FileTree) (path text : String) : Option FileTree :=
  match tree.place? path with
  | none => none
  | some place =>
    let last := (path.splitOn "/").getLastD ""
    if last = "" || last = "." || last = ".." || (tree.find? place).any isDirectory then none
    else some (tree.put (.file text.toUTF8) place)

def list? (tree : FileTree) (path : String) : Option (List (String × EntryKind)) :=
  match (tree.place? path).bind tree.find? with
  | some (.directory entries) =>
    some (entries.map fun entry =>
      (entry.1, if entry.2.isDirectory then EntryKind.directory else .file))
  | _ => none

/-- The disk made of a tree. -/
def disk : Disk (StateM FileTree) where
  readText path := return (← get).readText? path
  writeText path text := do
    match (← get).writeText? path text with
    | some tree => set tree; return true
    | none => return false
  list path := return (← get).list? path

end FileTree
end CopperTidy
