import CopperTidy.Cleanup.Options

/-! # Arguments

The arguments of the command line. An option may be given once, in its long or its short form; its
value follows as the next argument, after `=`, or directly after the letter. Letters without values
can be joined. After `--` every argument stands for itself. `-v` may come anywhere and any number
of times.
-/

namespace CopperTidy.CommandLine
set_option autoImplicit false

inductive Format
  | human
  | json
  deriving DecidableEq, Repr

/-- Which passes to run. -/
structure Passes where
  /-- A file of options. -/
  config : Option String := none
  /-- Passes that the arguments leave on. -/
  allowed : Options := {}
  deriving DecidableEq, Repr

inductive Command
  | clean (file : String) (output : Option String) (dryRun : Bool) (passes : Passes)
      (format : Format) (failOnChange : Bool)
  | project (dir : String) (write : Bool) (passes : Passes) (format : Format)
      (failOnChange : Bool)
  | stats (file : String) (format : Format)
  | showVersion
  | showHelp
  deriving DecidableEq, Repr

/-! ## Flags -/

inductive Flag
  | output
  | dryRun
  | config
  | noVias
  | noMerge
  | noMisconnected
  | noDangling
  | format
  | failOnChange
  | write
  | verbose
  | help
  | version
  deriving DecidableEq, Repr

namespace Flag

def long : Flag → String
  | output => "output"
  | dryRun => "dry-run"
  | config => "config"
  | noVias => "no-vias"
  | noMerge => "no-merge"
  | noMisconnected => "no-misconnected"
  | noDangling => "no-dangling"
  | format => "format"
  | failOnChange => "fail-on-change"
  | write => "write"
  | verbose => "verbose"
  | help => "help"
  | version => "version"

def short? : Flag → Option Char
  | output => some 'o'
  | format => some 'f'
  | verbose => some 'v'
  | help => some 'h'
  | version => some 'V'
  | _ => none

def takesValue : Flag → Bool
  | output | config | format => true
  | _ => false

/-- Is this a value for the flag? A path cannot be empty. -/
def accepts (f : Flag) (value : String) : Bool :=
  match f with
  | format => value == "human" || value == "json"
  | output | config => value != ""
  | _ => true

def passes : List Flag := [config, noVias, noMerge, noMisconnected, noDangling]

end Flag

/-- Flags before the name of a command. -/
def topFlags : List Flag := [.verbose, .help, .version]

def cleanFlags : List Flag :=
  [.output, .dryRun, .format, .failOnChange, .verbose, .help] ++ Flag.passes

def projectFlags : List Flag := [.write, .format, .failOnChange, .verbose, .help] ++ Flag.passes

def statsFlags : List Flag := [.format, .verbose, .help]

/-! ## Reading -/

/-- What the arguments gave: flags with their values, and the argument that is no flag. -/
structure Given where
  flags : List (Flag × String) := []
  target : Option String := none
  deriving DecidableEq, Repr

/-- Why reading stops early. -/
inductive Stop
  | usage
  | help
  | version
  deriving DecidableEq, Repr

namespace Given

def has (g : Given) (f : Flag) : Bool := g.flags.any fun entry => entry.1 = f

def value? (g : Given) (f : Flag) : Option String := g.flags.lookup f

/-- One more flag. Only `-v` may be repeated. -/
def addFlag (g : Given) (f : Flag) (value : String) : Except Stop Given :=
  match f with
  | .help => .error .help
  | .version => .error .version
  | _ =>
    if (g.has f && f != .verbose) || !f.accepts value then .error .usage
    else .ok { g with flags := g.flags ++ [(f, value)] }

/-- The argument that is no flag; there is at most one, and it is not empty. -/
def setTarget (g : Given) (value : String) : Except Stop Given :=
  if value = "" || g.target.isSome then .error .usage else .ok { g with target := some value }

end Given

/-- The text before the first `=`, and the text after it if there is one. -/
def splitAtEquals (cs : List Char) : List Char × Option (List Char) :=
  match cs.dropWhile (· != '=') with
  | [] => (cs, none)
  | _ :: rest => (cs.takeWhile (· != '='), some rest)

/-- Reads `--name` or `--name=value`; a flag that waits for its value is given back. -/
def readLong (allowed : List Flag) (g : Given) (cs : List Char) :
    Except Stop (Given × Option Flag) :=
  let (name, value) := splitAtEquals cs
  match allowed.find? (·.long.toList == name), value with
  | none, _ => .error .usage
  | some f, some value =>
    if f.takesValue then (g.addFlag f (String.ofList value)).map (·, none) else .error .usage
  | some f, none => if f.takesValue then .ok (g, some f) else (g.addFlag f "").map (·, none)

/-- Reads letters after a single `-`. The first one that takes a value takes what follows. -/
def readShort (allowed : List Flag) (g : Given) : List Char → Except Stop (Given × Option Flag)
  | [] => .ok (g, none)
  | c :: rest =>
    match allowed.find? (·.short? == some c) with
    | none => .error .usage
    | some f =>
      if f.takesValue then
        match rest with
        | [] => .ok (g, some f)
        | '=' :: value | value => (g.addFlag f (String.ofList value)).map (·, none)
      else
        match g.addFlag f "" with
        | .ok g => readShort allowed g rest
        | .error stop => .error stop

/-- What an argument looks like. -/
inductive ArgumentForm
  | escape
  | long (rest : List Char)
  | short (rest : List Char)
  | value

def ArgumentForm.of (argument : String) : ArgumentForm :=
  match argument.toList with
  | ['-', '-'] => .escape
  | '-' :: '-' :: rest => .long rest
  | '-' :: c :: rest => .short (c :: rest)
  | _ => .value

/-- Reads the arguments of a command. `waiting` is a flag whose value comes next. -/
def readArguments (allowed : List Flag) (g : Given) (waiting : Option Flag) :
    List String → Except Stop Given
  | [] => if waiting.isSome then .error .usage else .ok g
  | argument :: rest =>
    match ArgumentForm.of argument, waiting with
    | .value, some f =>
      match g.addFlag f argument with
      | .ok g => readArguments allowed g none rest
      | .error stop => .error stop
    | .value, none =>
      match g.setTarget argument with
      | .ok g => readArguments allowed g none rest
      | .error stop => .error stop
    | _, some _ => .error .usage
    | .escape, none => rest.foldlM Given.setTarget g
    | .long cs, none =>
      match readLong allowed g cs with
      | .ok (g, waiting) => readArguments allowed g waiting rest
      | .error stop => .error stop
    | .short cs, none =>
      match readShort allowed g cs with
      | .ok (g, waiting) => readArguments allowed g waiting rest
      | .error stop => .error stop

/-! ## Commands -/

/-- The format that was asked for; the default is the human one. -/
def Given.format (g : Given) : Format := if g.value? .format = some "json" then .json else .human

def Given.passes (g : Given) : Passes where
  config := g.value? .config
  allowed :=
    { removeMisconnected := !g.has .noMisconnected
      cleanVias := !g.has .noVias
      mergeSegments := !g.has .noMerge
      deleteDangling := !g.has .noDangling }

/-- The file that a command works on. -/
def Given.file (g : Given) : Except Stop String :=
  match g.target with
  | some file => .ok file
  | none => .error .usage

def readClean (arguments : List String) : Except Stop Command := do
  let g ← readArguments cleanFlags {} none arguments
  return .clean (← g.file) (g.value? .output) (g.has .dryRun) g.passes g.format
    (g.has .failOnChange)

/-- Without a directory the current one is meant. -/
def readProject (arguments : List String) : Except Stop Command := do
  let g ← readArguments projectFlags {} none arguments
  return .project (g.target.getD ".") (g.has .write) g.passes g.format (g.has .failOnChange)

def readStats (arguments : List String) : Except Stop Command := do
  let g ← readArguments statsFlags {} none arguments
  return .stats (← g.file) g.format

/-- What may follow `help`: nothing, or the name of a command. -/
def readHelp : List String → Except Stop Command
  | [] | ["clean"] | ["project"] | ["stats"] | ["help"] => .error .help
  | _ => .error .usage

/-- Reads flags up to the name of a command, and then the command. -/
def readCommand (g : Given) : List String → Except Stop Command
  | [] => .error .usage
  | argument :: rest =>
    match ArgumentForm.of argument with
    | .escape => .error .usage
    | .long cs =>
      match readLong topFlags g cs with
      | .ok (g, _) => readCommand g rest
      | .error stop => .error stop
    | .short cs =>
      match readShort topFlags g cs with
      | .ok (g, _) => readCommand g rest
      | .error stop => .error stop
    | .value =>
      match argument with
      | "clean" => readClean rest
      | "project" => readProject rest
      | "stats" => readStats rest
      | "help" => readHelp rest
      | _ => .error .usage

/-- The command that the arguments spell; there is none if they are wrong. -/
def Command.read? (arguments : List String) : Option Command :=
  match readCommand {} arguments with
  | .ok command => some command
  | .error .help => some .showHelp
  | .error .version => some .showVersion
  | .error .usage => none

end CopperTidy.CommandLine
