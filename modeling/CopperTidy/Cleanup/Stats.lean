import CopperTidy.Board.Change
import CopperTidy.Json.Writer

/-! # Counters of a cleaning -/

namespace CopperTidy
set_option autoImplicit false

/-- How many tracks went for each reason, and how many vias were mended. -/
structure Stats where
  nullSegments : Nat := 0
  duplicateVias : Nat := 0
  viasOnPads : Nat := 0
  duplicateTracks : Nat := 0
  mergedSegments : Nat := 0
  misconnected : Nat := 0
  dangling : Nat := 0
  /-- Vias whose end did not lie on their start. -/
  normalizedVias : Nat := 0
  deriving DecidableEq, Repr

namespace Stats

/-- One more removal. -/
def count (s : Stats) : Reason → Stats
  | .nullSegment => { s with nullSegments := s.nullSegments + 1 }
  | .duplicateVia => { s with duplicateVias := s.duplicateVias + 1 }
  | .viaOnThroughPad => { s with viasOnPads := s.viasOnPads + 1 }
  | .duplicateTrack => { s with duplicateTracks := s.duplicateTracks + 1 }
  | .mergedCollinear => { s with mergedSegments := s.mergedSegments + 1 }
  | .misConnected => { s with misconnected := s.misconnected + 1 }
  | .dangling => { s with dangling := s.dangling + 1 }

/-- Removals for a reason. -/
def removals (s : Stats) : Reason → Nat
  | .nullSegment => s.nullSegments
  | .duplicateVia => s.duplicateVias
  | .viaOnThroughPad => s.viasOnPads
  | .duplicateTrack => s.duplicateTracks
  | .mergedCollinear => s.mergedSegments
  | .misConnected => s.misconnected
  | .dangling => s.dangling

def totalRemoved (s : Stats) : Nat := (Reason.all.map s.removals).foldl (· + ·) 0

theorem removals_count (s : Stats) (r q : Reason) :
    (s.count r).removals q = s.removals q + if r = q then 1 else 0 := by
  cases r <;> cases q <;> rfl

theorem totalRemoved_count (s : Stats) (r : Reason) :
    (s.count r).totalRemoved = s.totalRemoved + 1 := by
  cases r <;> simp only [totalRemoved, Reason.all, count, removals, List.map, List.foldl] <;>
    omega

def json (s : Stats) : Json :=
  .object [("null_segments", .nat s.nullSegments), ("duplicate_vias", .nat s.duplicateVias),
    ("vias_on_pads", .nat s.viasOnPads), ("duplicate_tracks", .nat s.duplicateTracks),
    ("merged_segments", .nat s.mergedSegments), ("misconnected", .nat s.misconnected),
    ("dangling", .nat s.dangling), ("normalized_vias", .nat s.normalizedVias)]

end Stats
end CopperTidy
