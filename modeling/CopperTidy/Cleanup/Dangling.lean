import CopperTidy.Cleanup.Run

/-! # Dangling tracks

An end of a track is connected when it lies on a pad, on another item of its net, or in a zone of
its net. A via that the end reaches counts only if something else goes on from it. Removing a track
may leave its neighbour dangling, so rounds follow each other until one removes nothing.
-/

namespace CopperTidy
set_option autoImplicit false

variable {ι σ : Type} [ContactSource ι]

/-- Is a through via a dead end for the track `id`? Not if it is on a pad, in a zone of its net, or
if another item of its net goes on from it. -/
def deadEnd (source : ι) (b : Board) (id other : Nat) (via : Track) : Bool :=
  !ContactSource.onPad source b other .start &&
    (ContactSource.itemsAt source b other via via.start
      { sameNet := true, exclude := [id] }).isEmpty &&
    (b.zoneUnder? via .start).isNone

/-- Is an end left open by the items of the net around it? Pads are not looked at. -/
def endDangles (source : ι) (b : Board) (id : Nat) (side : Side) : Bool :=
  match b.track? id with
  | none => false
  | some t =>
    match ContactSource.firstConnectedAt? source b id side { sameNet := true } with
    | none => (b.zoneUnder? t side).isNone
    | some other =>
      match b.track? other with
      | some u => u.isThroughVia && deadEnd source b id other u
      | none => false

/-- Has the track an open end that is not on a pad? -/
def dangles (source : ι) (b : Board) (id : Nat) : Bool :=
  (!ContactSource.onPad source b id .start && endDangles source b id .start) ||
    (!ContactSource.onPad source b id .stop && endDangles source b id .stop)

namespace Run

/-- Rounds of removals, at most `limit` of them. -/
def danglingRounds (limit : Nat) (r : Run ι σ) : Run ι σ × Bool :=
  match limit with
  | 0 => (r, false)
  | limit + 1 =>
    let r := r.refresh
    let condemned := r.board.ids.filter (dangles r.contacts r.board)
    if condemned.isEmpty then (r, false)
    else ((danglingRounds limit (condemned.foldl (removeTrack .dangling) r)).1, true)

/-- Rounds of removals until nothing dangles. Each round takes a track off the board. -/
def deleteDangling (r : Run ι σ) : Run ι σ × Bool := danglingRounds r.board.trackCount r

end Run
end CopperTidy
