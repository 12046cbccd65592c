import CopperTidy.Cleanup.Dangling
import CopperTidy.Cleanup.Options
import CopperTidy.Cleanup.Segments
import CopperTidy.Cleanup.Shorts
import CopperTidy.Cleanup.Vias

/-! # Cleaning a board

The passes in their order. Null segments go with the segment pass, or on their own before shorts
are looked for. When dangling tracks went, segments are cleaned once more: without its stem, the bar
of a T is left in two aligned pieces.
-/

namespace CopperTidy
set_option autoImplicit false

variable {ι σ : Type} [ContactSource ι]

namespace Run

/-- A pass that is only run if it is switched on. -/
def when (on : Bool) (pass : Run ι σ → Run ι σ × Bool) (r : Run ι σ) : Run ι σ × Bool :=
  if on then pass r else (r, false)

/-- The segment pass, or its first part if only shorts are wanted. -/
def segmentPass (o : Options) (r : Run ι σ) : Run ι σ × Bool :=
  if o.mergeSegments then r.cleanSegments
  else if o.removeMisconnected then r.deleteNullSegments
  else (r, false)

def shortPass (r : Run ι σ) : Run ι σ × Bool :=
  let (r, changed) := r.removeShorts
  if changed then (r.rebuild, true) else (r, false)

def danglingPass (o : Options) (r : Run ι σ) : Run ι σ × Bool :=
  let (r, changed) := r.refresh.deleteDangling
  if changed && o.mergeSegments then (r.cleanSegments.1, true) else (r, changed)

/-- All passes that are switched on; tells whether the board changed. -/
def cleanup (o : Options) (r : Run ι σ) : Run ι σ × Bool :=
  if o.anyEnabled then
    let (r, mended) := r.normalizeVias
    let (r, vias) := when o.cleanVias cleanVias r.rebuild
    let (r, segments) := segmentPass o r
    let (r, shorted) := when o.removeMisconnected shortPass r
    let (r, dangling) := when o.deleteDangling (danglingPass o) r
    (r, mended || vias || segments || shorted || dangling)
  else (r, false)

end Run

/-- What a cleaning did to a board. -/
structure Cleaned where
  modified : Bool
  board : Board
  changes : List Change
  stats : Stats
  deriving DecidableEq, Repr

/-- A cleaning of its own, with an observer; what the observer has seen comes with it. -/
def Board.cleanWith {σ : Type} (b : Board) (o : Options) (observer : Observer σ) (seen : σ) :
    Cleaned × σ :=
  let (r, modified) := (Run.start (ι := Contacts) b observer seen).cleanup o
  (⟨modified, r.board, r.log, r.stats⟩, r.seen)

def Board.clean (b : Board) (o : Options) : Cleaned := (b.cleanWith o .silent ()).1

/-- Only shorts are looked for. -/
def Options.onlyMisconnected : Options := { Options.none with removeMisconnected := true }

end CopperTidy
