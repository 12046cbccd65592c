import CopperTidy.Cleanup.Run
import CopperTidy.Copper.Alignment

/-! # Segments

Null segments go, then copies, then collinear runs become one segment. Two traces of one width that
meet end to end on a straight line, with nothing else of their net at the junction, become one
trace: the first keeps its identity and stretches over the other, which goes.
-/

namespace CopperTidy.Run
set_option autoImplicit false

variable {ι σ : Type}

/-! ## Null segments -/

def deleteNullSegments (r : Run ι σ) : Run ι σ × Bool :=
  let null := (r.board.tracks.filter fun entry => entry.2.isNull).map (·.1)
  (null.foldl (removeTrack .nullSegment) r, !null.isEmpty)

/-! ## Copies -/

/-- Copies of a track that follow it before the first track of another net. -/
def copiesOf (b : Board) (id : Nat) (t : Track) : List Nat :=
  (((b.tracksAfter id).takeWhile fun entry => entry.2.net == t.net).filter fun entry =>
    t.duplicates entry.2).map (·.1)

def removeCopies (r : Run ι σ) (id : Nat) : Run ι σ × Bool :=
  match r.board.track? id with
  | none => (r, false)
  | some t =>
    let copies := copiesOf r.board id t
    (copies.foldl (absorbTrack .duplicateTrack id) r, !copies.isEmpty)

/-! ## Collinear segments -/

variable [ContactSource ι]

/-- The end of `u` that does not lie at `near`; its start if neither does. -/
def farEnd (u : Track) (near : Point) : Point := if u.start = near then u.stop else u.start

/-- Merges `candidate` into `id` across an end, if the geometry allows. An end on a pad stays where
it is. -/
def mergePair (r : Run ι σ) (id candidate : Nat) (side : Side) : Run ι σ × Bool :=
  match r.board.track? id, r.board.track? candidate with
  | some t, some u =>
    if !t.mergeable u then (r, false)
    else if t.sameEnds u then (r.absorbTrack .mergedCollinear id candidate, true)
    else if !t.collinear u || ContactSource.onPad r.contacts r.board id side then (r, false)
    else
      let stretched := r.modifyTrack (fun v => v.setPoint (farEnd u (t.point side)) side) id
      (stretched.absorbTrack .mergedCollinear id candidate, true)
  | _, _ => (r, false)

/-- Merges across one end, when exactly one track of the net is attached there. -/
def mergeAt (r : Run ι σ) (id : Nat) (side : Side) : Run ι σ × Bool :=
  let r := r.refresh
  match r.attached id side with
  | [other] => r.mergePair id other side
  | _ => (r, false)

/-- Merges across the start, or else across the end. -/
def mergeOnce (r : Run ι σ) (id : Nat) : Run ι σ × Bool :=
  match r.mergeAt id .start with
  | (r, true) => (r, true)
  | (r, false) => r.mergeAt id .stop

/-- Merges a trace until nothing more fits, at most `limit` times. -/
def mergeUpTo (limit : Nat) (r : Run ι σ) (id : Nat) : Run ι σ × Bool :=
  match limit with
  | 0 => (r, false)
  | limit + 1 =>
    if (r.board.track? id).any Track.isTrace then
      match r.mergeOnce id with
      | (r, true) => ((mergeUpTo limit r id).1, true)
      | (r, false) => (r, false)
    else (r, false)

/-- Merges a trace until nothing more fits. Each merge takes a track off the board. -/
def mergeAll (r : Run ι σ) (id : Nat) : Run ι σ × Bool := mergeUpTo r.board.trackCount r id

/-! ## The pass -/

def cleanSegments (r : Run ι σ) : Run ι σ × Bool :=
  let (r, null) := r.deleteNullSegments
  let (r, copies) := forEach removeCopies r r.board.ids
  let (r, merged) := forEach mergeAll r r.board.ids
  (r, null || copies || merged)

end CopperTidy.Run
