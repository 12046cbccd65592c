import CopperTidy.Copper.Length
import CopperTidy.Copper.Pad
import CopperTidy.Copper.Zone

/-! # Boards

A board holds the copper items that a cleaning looks at. A track keeps its slot for as long as the
board lives: its id is the number of the slot, the order of the slots is the track sequence, and
taking a track off the board leaves the slot empty. The id of a pad is its place in the order the
pads were added. Every change raises the revision, so that data derived from a board can tell that
it is out of date.
-/

namespace CopperTidy
set_option autoImplicit false

structure Board where
  slots : List (Option Track) := []
  pads : List Pad := []
  zones : List Zone := []
  revision : Nat := 0
  deriving DecidableEq, Repr

namespace Board

/-! ## Reading tracks -/

def track? (b : Board) (id : Nat) : Option Track := b.slots[id]?.join

/-- Tracks with their ids, the first slot being number `first`. -/
def numbered (first : Nat) : List (Option Track) → List (Nat × Track)
  | [] => []
  | none :: rest => numbered (first + 1) rest
  | some t :: rest => (first, t) :: numbered (first + 1) rest

/-- Live tracks in sequence order. -/
def tracks (b : Board) : List (Nat × Track) := numbered 0 b.slots

/-- Live tracks that follow `id` in the sequence. -/
def tracksAfter (b : Board) (id : Nat) : List (Nat × Track) :=
  numbered (id + 1) (b.slots.drop (id + 1))

def ids (b : Board) : List Nat := b.tracks.map (·.1)

def trackCount (b : Board) : Nat := b.tracks.length

def isEmpty (b : Board) : Bool := b.trackCount == 0

/-! ## Changing tracks -/

/-- A new track at the end of the sequence; its id is the number of slots before. -/
def addTrack (b : Board) (t : Track) : Board :=
  { b with slots := b.slots ++ [some t], revision := b.revision + 1 }

/-- The board with a live track edited; without a live track at `id` nothing happens. -/
def modify (b : Board) (id : Nat) (edit : Track → Track) : Board :=
  match b.track? id with
  | none => b
  | some t => { b with slots := b.slots.set id (some (edit t)), revision := b.revision + 1 }

/-- The board without the track at `id`; without a live track there nothing happens. -/
def remove (b : Board) (id : Nat) : Board :=
  match b.track? id with
  | none => b
  | some _ => { b with slots := b.slots.set id none, revision := b.revision + 1 }

/-- The board with `t` in the slot `id`, whatever was there; missing slots are added empty. -/
def restore (b : Board) (id : Nat) (t : Track) : Board :=
  let padded := b.slots ++ List.replicate (id + 1 - b.slots.length) none
  { b with slots := padded.set id (some t), revision := b.revision + 1 }

/-- The live tracks in a stable order by net, in slots without gaps. All ids change. -/
def sortByNet (b : Board) : Board :=
  let sorted := (b.slots.filterMap id).mergeSort fun t u => t.net ≤ u.net
  { b with slots := sorted.map some, revision := b.revision + 1 }

/-! ## Pads and zones -/

def addPad (b : Board) (pad : Pad) : Board :=
  { b with pads := b.pads ++ [pad], revision := b.revision + 1 }

def addZone (b : Board) (z : Zone) : Board :=
  { b with zones := b.zones ++ [z], revision := b.revision + 1 }

def pad? (b : Board) (id : Nat) : Option Pad := b.pads[id]?

/-- Pads with their ids, for those that satisfy a condition. -/
def padsWhere (b : Board) (condition : Pad → Bool) : List Nat :=
  (b.pads.zipIdx.filter fun entry => condition entry.1).map (·.2)

/-- Pads that connect to copper ending at `p` on `layers`. -/
def padsAt (b : Board) (p : Point) (layers : LayerSet) : List Nat :=
  b.padsWhere (·.hits p layers)

def padsInNet (b : Board) (net : UInt32) : List Nat := b.padsWhere (·.net == net)

/-- Number of the first zone of `net` with copper at `p` on a layer between `top` and `bottom`. -/
def zoneAt? (b : Board) (p : Point) (top bottom : Layer) (net : UInt32) : Option Nat :=
  b.zones.findIdx? fun z => z.net == net && z.covers p top bottom

/-- Number of the zone of the track's own net under one of its ends. -/
def zoneUnder? (b : Board) (t : Track) (side : Side) : Option Nat :=
  b.zoneAt? (t.point side) t.layerPair.1 t.layerPair.2 t.net

/-! ## Nets -/

/-- Routed length of a net in nanometres; vias contribute nothing. The sum of no lengths is the
negative zero, the one float that changes no sum. -/
def netLength (b : Board) (net : UInt32) : Float :=
  ((b.tracks.filter fun entry => entry.2.net == net && !entry.2.isVia).map (·.2.length)).foldl
    (· + ·) (-0.0)

/-- An ascending list with `n` in its place, once. -/
def insertNet (n : UInt32) : List UInt32 → List UInt32
  | [] => [n]
  | m :: rest =>
    if n < m then n :: m :: rest
    else if n = m then m :: rest
    else m :: insertNet n rest

/-- The nets that tracks or pads carry, ascending; net 0 stands for no net. -/
def nets (b : Board) : List UInt32 :=
  ((b.tracks.map (·.2.net) ++ b.pads.map (·.net)).filter (· != 0)).foldr insertNet []

/-- How many items of each kind a board holds. -/
structure Summary where
  traces : Nat
  arcs : Nat
  vias : Nat
  pads : Nat
  zones : Nat
  nets : Nat
  deriving DecidableEq, Repr

def summary (b : Board) : Summary where
  traces := b.tracks.countP (·.2.isTrace)
  arcs := b.tracks.countP (·.2.isArc)
  vias := b.tracks.countP (·.2.isVia)
  pads := b.pads.length
  zones := b.zones.length
  nets := b.nets.length

end Board
end CopperTidy
