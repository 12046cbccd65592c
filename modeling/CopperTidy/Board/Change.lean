import CopperTidy.Board.Basic

/-! # Changes and their undoing

A cleaning reports every change to the track sequence. A `Commit` collects the changes of one
operation; closing it gives an `UndoRecord`, which takes the changes back, newest first.
-/

namespace CopperTidy
set_option autoImplicit false

/-- Why a track was taken off the board. -/
inductive Reason
  | nullSegment
  | duplicateVia
  | viaOnThroughPad
  | duplicateTrack
  | mergedCollinear
  | misConnected
  | dangling
  deriving DecidableEq, Repr

namespace Reason

def all : List Reason :=
  [nullSegment, duplicateVia, viaOnThroughPad, duplicateTrack, mergedCollinear, misConnected,
    dangling]

/-- The name in data. -/
def name : Reason → String
  | nullSegment => "null_segment"
  | duplicateVia => "duplicate_via"
  | viaOnThroughPad => "via_on_through_pad"
  | duplicateTrack => "duplicate_track"
  | mergedCollinear => "merged_collinear"
  | misConnected => "mis_connected"
  | dangling => "dangling"

/-- The words in reports. -/
def describe : Reason → String
  | nullSegment => "zero-length segment"
  | duplicateVia => "duplicate via"
  | viaOnThroughPad => "via on through-hole pad"
  | duplicateTrack => "duplicate track"
  | mergedCollinear => "merged into collinear neighbour"
  | misConnected => "connects different nets"
  | dangling => "dangling"

end Reason

inductive Change
  /-- A track left the board. -/
  | removed (id : Nat) (track : Track) (reason : Reason)
  /-- A track was edited in its slot. -/
  | modified (id : Nat) (before after : Track)
  deriving DecidableEq, Repr

namespace Change

def isRemoval : Change → Bool
  | .removed .. => true
  | .modified .. => false

/-- The board with the change taken back: the slot holds the track that was there before. -/
def undo (b : Board) : Change → Board
  | .removed id track _ => b.restore id track
  | .modified id before _ => b.restore id before

end Change

/-- The changes of one operation, oldest first. -/
structure Commit where
  changes : List Change := []
  deriving DecidableEq, Repr

structure UndoRecord where
  message : String
  changes : List Change
  deriving DecidableEq, Repr

namespace Commit

def isEmpty (c : Commit) : Bool := c.changes.isEmpty

def removedCount (c : Commit) : Nat := c.changes.countP (·.isRemoval)

/-- The undo record of a closed commit; an empty commit has none. -/
def push (c : Commit) (message : String) : Option UndoRecord :=
  if c.isEmpty then none else some ⟨message, c.changes⟩

end Commit

/-- The board with every change taken back, newest first. -/
def UndoRecord.revert (r : UndoRecord) (b : Board) : Board := r.changes.reverse.foldl Change.undo b

end CopperTidy
