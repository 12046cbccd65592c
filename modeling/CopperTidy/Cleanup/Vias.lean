import CopperTidy.Cleanup.Run
import CopperTidy.Copper.Alignment

/-! # Vias

First of all, a via has both ends in one place. Then a through via goes if an earlier one stands at
the same point, or if a pad through all copper layers is there. Other vias stay.
-/

namespace CopperTidy.Run
set_option autoImplicit false

variable {ι σ : Type}

/-! ## Ends -/

def isMalformedVia (t : Track) : Bool := t.isVia && t.start != t.stop

/-- The via with its end on its start. -/
def normalizeVia (r : Run ι σ) (id : Nat) : Run ι σ :=
  let r := r.modifyTrack (fun t => { t with stop := t.start }) id
  { r with stats := { r.stats with normalizedVias := r.stats.normalizedVias + 1 } }

/-- Mends every via; tells whether there was one to mend. -/
def normalizeVias (r : Run ι σ) : Run ι σ × Bool :=
  let malformed := (r.board.tracks.filter fun entry => isMalformedVia entry.2).map (·.1)
  (malformed.foldl normalizeVia r, !malformed.isEmpty)

/-! ## Stacked vias -/

/-- Later through vias at the point of a through via, on any net. -/
def stackedOn (b : Board) (id : Nat) (via : Track) : List Nat :=
  ((b.tracksAfter id).filter fun entry => via.duplicateVias entry.2).map (·.1)

variable [ContactSource ι]

/-- Is the track on a pad through all copper layers? -/
def onThroughPad (r : Run ι σ) (id : Nat) : Bool :=
  (ContactSource.padsOf r.contacts r.board id).any fun pad =>
    (r.board.pad? pad).any Pad.onAllCopper

/-- Cleans the point of one through via. -/
def cleanVia (r : Run ι σ) (id : Nat) : Run ι σ × Bool :=
  match r.board.track? id with
  | none => (r, false)
  | some via =>
    if via.isThroughVia then
      let stacked := stackedOn r.board id via
      let r := stacked.foldl (removeTrack .duplicateVia) r
      if r.onThroughPad id then (r.removeTrack .viaOnThroughPad id, true)
      else (r, !stacked.isEmpty)
    else (r, false)

def cleanVias (r : Run ι σ) : Run ι σ × Bool :=
  let r := r.refresh
  forEach cleanVia r r.board.ids

end CopperTidy.Run
