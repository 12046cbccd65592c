import CopperTidy.Report.Json

/-! # Output of the command line

Reports and statistics as text for people.
-/

namespace CopperTidy.CommandLine
set_option autoImplicit false

/-! ## Columns -/

def blanks (n : Nat) : String := String.ofList (List.replicate n ' ')

/-- A text filled up on the right; a longer one stays as it is. -/
def left (width : Nat) (s : String) : String := s ++ blanks (width - s.length)

/-- A text filled up on the left. -/
def right (width : Nat) (s : String) : String := blanks (width - s.length) ++ s

def line (s : String) : String := s ++ "\n"

def number (n : Nat) : String := String.ofList (Text.natural n)

/-- The heading of a file. -/
def heading (file : String) : String :=
  line ("\nFile: " ++ file) ++ line (String.ofList (List.replicate 60 '─'))

/-! ## Cleanings -/

/-- A count of mended items; none is not mentioned. -/
def countLine (what : String) (n : Nat) : String :=
  if n = 0 then "" else line ("  " ++ left 32 what ++ " " ++ number n)

def changeLine (what : String) (before after : Nat) : String :=
  line ("    " ++ left 9 what ++ " " ++ number before ++ " -> " ++ number after)

def reportText (r : Report) : String :=
  if !r.modified then heading r.file ++ line "  Nothing to clean"
  else
    heading r.file ++
      String.join
        (Reason.all.map fun reason => countLine reason.describe (r.stats.removals reason)) ++
      countLine "malformed vias fixed" r.stats.normalizedVias ++
      line "\n  Summary:" ++
      changeLine "Segments:" r.before.traces r.after.traces ++
      (if r.before.arcs = 0 then "" else changeLine "Arcs:" r.before.arcs r.after.arcs) ++
      changeLine "Vias:" r.before.vias r.after.vias ++
      changeLine "Unrouted:" r.unroutedBefore r.unroutedAfter ++
      (match r.written with
        | some path => line ("    Written:  " ++ path)
        | none => line "    Dry run, nothing written")

/-! ## Statistics -/

def netLine (n : NetLength) : String :=
  let name := if n.name = "" then "<net " ++ number n.net.toNat ++ ">" else n.name
  let length := String.ofList (Decimal.fixed 3 n.lengthMm)
  line ("  " ++ left 24 name ++ " " ++ right 12 length ++ " " ++ right 8 (number n.islands))

def statLine (what : String) (n : Nat) : String := line ("  " ++ left 9 what ++ " " ++ number n)

def statsText (s : BoardStats) : String :=
  heading s.file ++ statLine "Segments:" s.summary.traces ++ statLine "Arcs:" s.summary.arcs ++
    statLine "Vias:" s.summary.vias ++ statLine "Pads:" s.summary.pads ++
    statLine "Zones:" s.summary.zones ++ statLine "Nets:" s.summary.nets ++
    statLine "Unrouted:" s.unrouted ++
    (if s.nets.isEmpty then ""
      else
        line ("\n  " ++ left 24 "Net" ++ " " ++ right 12 "Length (mm)" ++ " " ++
          right 8 "Islands") ++
          String.join (s.nets.map netLine))

end CopperTidy.CommandLine
