import CopperTidy.Cleanup.Run

/-! # Shorts

A track goes if it touches a pad of another net, or a track of another net that is not itself going.
Tracks are looked at in sequence order, so of two tracks that short two nets the earlier one goes.
The pass keeps a list of the condemned tracks, as any source of contacts will do for it; a snapshot
can carry them as marks, and marks the same tracks.
-/

namespace CopperTidy
set_option autoImplicit false

variable {ι σ : Type} [ContactSource ι]

def touchesForeignPad (source : ι) (b : Board) (id : Nat) (t : Track) : Bool :=
  (ContactSource.padsOf source b id).any fun pad => (b.pad? pad).any fun p => p.net != t.net

/-- Does the track touch a track of another net that is not condemned? -/
def touchesForeignTrack (source : ι) (b : Board) (condemned : List Nat) (id : Nat)
    (t : Track) : Bool :=
  (ContactSource.tracksOf source b id).any fun other =>
    ((b.track? other).any fun u => u.net != t.net) && !condemned.contains other

/-- The condemned tracks with one more track looked at. -/
def condemnShort (source : ι) (b : Board) (condemned : List Nat) (entry : Nat × Track) :
    List Nat :=
  if touchesForeignPad source b entry.1 entry.2 ||
      touchesForeignTrack source b condemned entry.1 entry.2 then
    condemned ++ [entry.1]
  else condemned

/-- Tracks to be removed for connecting different nets, in sequence order. -/
def shorts (source : ι) (b : Board) : List Nat := b.tracks.foldl (condemnShort source b) []

/-! ## Marking -/

namespace Contacts

/-- The snapshot with one more track looked at: it is marked if it connects different nets. -/
def markShort (b : Board) (c : Contacts) (entry : Nat × Track) : Contacts :=
  if touchesForeignPad c b entry.1 entry.2 || touchesForeignTrack c b c.marks entry.1 entry.2 then
    c.setMarked entry.1 true
  else c

/-- The snapshot with marks on the tracks to be removed, and on no others. -/
def markShorts (c : Contacts) (b : Board) : Contacts := b.tracks.foldl (markShort b) c.clearMarks

end Contacts

/-! ## Removal -/

namespace Run

def removeShorts (r : Run ι σ) : Run ι σ × Bool :=
  let r := r.rebuild
  let condemned := shorts r.contacts r.board
  (condemned.foldl (removeTrack .misConnected) r, !condemned.isEmpty)

end Run
end CopperTidy
