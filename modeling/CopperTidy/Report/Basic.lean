import CopperTidy.Board.Islands
import CopperTidy.Cleanup.Basic
import CopperTidy.Document

/-! # Reports

What a cleaning did to one file, and the statistics of the copper in a file. Both are plain data;
how they are made and shown is said elsewhere.
-/

namespace CopperTidy
set_option autoImplicit false

/-- A removed track in the terms of the file. -/
structure RemovedItem where
  uuid : String
  kind : String
  net : UInt32
  netName : Option String
  layer : String
  /-- Ends in millimetres. -/
  start : Float × Float
  stop : Float × Float
  reason : Reason

def RemovedItem.of (design : Design) (t : Track) (reason : Reason) : RemovedItem where
  uuid := t.uuid
  kind := t.kindName
  net := t.net
  netName := design.netName? t.net
  layer := t.layer.name
  start := (toMm t.start.x, toMm t.start.y)
  stop := (toMm t.stop.x, toMm t.stop.y)
  reason

structure Report where
  file : String
  modified : Bool
  /-- Where the board was saved, if it was. -/
  written : Option String
  options : Options
  stats : Stats
  removed : List RemovedItem
  /-- Tracks that were edited in their place. -/
  modifiedTracks : Nat
  before : Board.Summary
  after : Board.Summary
  unroutedBefore : Nat
  unroutedAfter : Nat

/-- The report of a cleaning of a loaded board. -/
def Report.of (file : String) (options : Options) (design : Design) (before : Board)
    (cleaned : Cleaned) : Report where
  file
  modified := cleaned.modified
  written := none
  options
  stats := cleaned.stats
  removed := cleaned.changes.filterMap fun
    | .removed _ t reason => some (.of design t reason)
    | .modified .. => none
  modifiedTracks := cleaned.changes.countP (!·.isRemoval)
  before := before.summary
  after := cleaned.board.summary
  unroutedBefore := totalUnrouted before.islands
  unroutedAfter := totalUnrouted cleaned.board.islands

/-- Length and islands of one net. -/
structure NetLength where
  net : UInt32
  name : String
  lengthMm : Float
  islands : Nat

structure BoardStats where
  file : String
  summary : Board.Summary
  unrouted : Nat
  nets : List NetLength

def BoardStats.of (file : String) (design : Design) (b : Board) : BoardStats where
  file
  summary := b.summary
  unrouted := totalUnrouted b.islands
  nets := b.islands.map fun n =>
    { net := n.net
      name := (design.netName? n.net).getD ""
      lengthMm := b.netLength n.net / nmPerMm
      islands := n.islands }

end CopperTidy
