import CopperTidy.Board.Basic

/-! # Contacts

What touches what on a board. `Contacts` is a snapshot: for each track the pads and tracks it
touches, and for each point the tracks that end there. It knows the revision of the board it was
built from, and is rebuilt, never patched, once the board has changed. `Scan` answers the same
questions by looking at the board itself.

A pass asks through `ContactSource`, and so does not depend on which of the two it is given.
-/

namespace CopperTidy
set_option autoImplicit false

/-- Which of the tracks at a point are wanted. -/
structure Neighbors where
  /-- Only tracks on the net of the asking track. -/
  sameNet : Bool := false
  /-- Tracks that are not wanted, besides the asking one. -/
  exclude : List Nat := []
  deriving DecidableEq, Repr

/-- Is `u`, the track `other`, wanted by the track `id` that is `t`? -/
def Neighbors.wants (n : Neighbors) (id : Nat) (t : Track) (other : Nat) (u : Track) :
    Bool :=
  other != id && !n.exclude.contains other && u.sharesLayer t && (!n.sameNet || u.net == t.net)

/-- Sources of answers about contacts. Every answer lists ids in ascending order, except that pads
under the start of a track come before those under its end. -/
class ContactSource (ι : Type) where
  build : Board → ι
  isCurrent : ι → Board → Bool
  /-- Live tracks with an end at a point that conduct on a layer of the asking track. -/
  itemsAt : ι → Board → Nat → Track → Point → Neighbors → List Nat
  /-- Is an end of a track on a pad, of whatever net? -/
  onPad : ι → Board → Nat → Side → Bool
  /-- Pads under the ends of a track. -/
  padsOf : ι → Board → Nat → List Nat
  /-- Tracks that touch a track. -/
  tracksOf : ι → Board → Nat → List Nat

namespace ContactSource

variable {ι : Type} [ContactSource ι]

/-- Live tracks at an end of a track; none for a track that is not live. -/
def connectedAt (source : ι) (b : Board) (id : Nat) (side : Side) (n : Neighbors) :
    List Nat :=
  match b.track? id with
  | some t => itemsAt source b id t (t.point side) n
  | none => []

def firstConnectedAt? (source : ι) (b : Board) (id : Nat) (side : Side) (n : Neighbors) :
    Option Nat :=
  (connectedAt source b id side n).head?

end ContactSource

/-! ## Looking at the board -/

namespace Board

def padsUnder (b : Board) (t : Track) (side : Side) : List Nat := b.padsAt (t.point side) t.layers

/-- Pads under either end, each once. -/
def padsUnderEnds (b : Board) (t : Track) : List Nat :=
  let first := b.padsUnder t .start
  first ++ (b.padsUnder t .stop).filter fun pad => !first.contains pad

/-- Other live tracks that share an end and a layer with a track. -/
def tracksTouching (b : Board) (id : Nat) (t : Track) : List Nat :=
  (b.tracks.filter fun entry => entry.1 != id && t.touches entry.2).map (·.1)

end Board

/-- Answers from the board as it is. -/
structure Scan where
  deriving DecidableEq, Repr

instance : ContactSource Scan where
  build _ := {}
  isCurrent _ _ := true
  itemsAt _ b id t p n :=
    (b.tracks.filter fun entry => entry.2.hasEndAt p && n.wants id t entry.1 entry.2).map (·.1)
  onPad _ b id side := (b.track? id).any fun t => !(b.padsUnder t side).isEmpty
  padsOf _ b id := ((b.track? id).map b.padsUnderEnds).getD []
  tracksOf _ b id := ((b.track? id).map (b.tracksTouching id)).getD []

/-! ## The snapshot -/

/-- What one track touches. -/
structure Touching where
  startPad : Option Nat
  stopPad : Option Nat
  pads : List Nat
  tracks : List Nat
  deriving DecidableEq, Repr

def Touching.of (b : Board) (id : Nat) (t : Track) : Touching where
  startPad := (b.padsUnder t .start).head?
  stopPad := (b.padsUnder t .stop).head?
  pads := b.padsUnderEnds t
  tracks := b.tracksTouching id t

def Touching.onPad (row : Touching) : Side → Bool
  | .start => row.startPad.isSome
  | .stop => row.stopPad.isSome

structure Contacts where
  revision : Nat := 0
  rows : List (Nat × Touching) := []
  /-- Points with the tracks that end there, in sequence order. -/
  ends : List (Point × Nat) := []
  /-- Tracks that carry a mark: those that the pass under way is going to remove. -/
  marks : List Nat := []
  deriving DecidableEq, Repr

/-- The points where a track ends, each once. -/
def Track.ends (t : Track) : List Point :=
  if t.stop = t.start then [t.start] else [t.start, t.stop]

namespace Contacts

def build (b : Board) : Contacts where
  revision := b.revision
  rows := b.tracks.map fun entry => (entry.1, Touching.of b entry.1 entry.2)
  ends := b.tracks.flatMap fun entry => entry.2.ends.map fun p => (p, entry.1)

/-- Built from the board as it is now? -/
def isCurrent (c : Contacts) (b : Board) : Bool := c.revision == b.revision

def row? (c : Contacts) (id : Nat) : Option Touching := c.rows.lookup id

/-- Tracks that the snapshot has at a point. -/
def endingAt (c : Contacts) (p : Point) : List Nat :=
  (c.ends.filter fun entry => entry.1 == p).map (·.2)

/-- Tracks that the snapshot has at a point and that the board still has there. -/
def itemsAt (c : Contacts) (b : Board) (id : Nat) (t : Track) (p : Point) (n : Neighbors) :
    List Nat :=
  (c.endingAt p).filter fun other =>
    (b.track? other).any fun u => u.hasEndAt p && n.wants id t other u

def onPad (c : Contacts) (id : Nat) (side : Side) : Bool :=
  (c.row? id).any fun row => row.onPad side

instance : ContactSource Contacts where
  build := build
  isCurrent := isCurrent
  itemsAt := itemsAt
  onPad c _ := c.onPad
  padsOf c _ id := ((c.row? id).map (·.pads)).getD []
  tracksOf c _ id := ((c.row? id).map (·.tracks)).getD []

/-! ## Marks -/

def isMarked (c : Contacts) (id : Nat) : Bool := c.marks.contains id

/-- Sets or clears a mark; a track that the snapshot does not know carries none. -/
def setMarked (c : Contacts) (id : Nat) (on : Bool) : Contacts :=
  let others := c.marks.filter (· != id)
  { c with marks := if on && (c.row? id).isSome then id :: others else others }

def clearMarks (c : Contacts) : Contacts := { c with marks := [] }

/-- Marked tracks in sequence order. -/
def marked (c : Contacts) : List Nat := (c.rows.map (·.1)).filter c.isMarked

variable (c : Contacts) (id other : Nat) (on : Bool)

@[simp] theorem rows_setMarked : (c.setMarked id on).rows = c.rows := rfl

@[simp] theorem rows_clearMarks : c.clearMarks.rows = c.rows := rfl

@[simp] theorem isMarked_clearMarks : c.clearMarks.isMarked id = false := rfl

theorem isMarked_setMarked :
    (c.setMarked id on).isMarked other =
      if other = id then on && (c.row? id).isSome else c.isMarked other := by
  rw [isMarked, isMarked, setMarked]
  by_cases same : other = id
  · subst same
    cases on && (c.row? other).isSome <;> simp
  · cases on && (c.row? id).isSome <;> simp [same]

end Contacts
end CopperTidy
