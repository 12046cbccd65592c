import CopperTidy.Board.Basic

/-! # Copper islands

The islands of a net are the groups of its tracks and pads that hang together: two tracks are
joined when they touch, a pad and a track when the pad connects to an end of the track. A routed net
is one island, and every further island is one connection that is still missing.
-/

namespace CopperTidy
set_option autoImplicit false

/-! ## Groups -/

/-- The groups after one more item: it joins all groups that hold something it is joined to. -/
def absorb {α : Type} (joined : α → α → Bool) (groups : List (List α)) (x : α) : List (List α) :=
  let near := groups.filter fun group => group.any (joined x)
  let far := groups.filter fun group => !group.any (joined x)
  (x :: near.flatten) :: far

/-- The groups into which a symmetric relation splits a list of items. -/
def groups {α : Type} (joined : α → α → Bool) (items : List α) : List (List α) :=
  items.foldl (absorb joined) []

/-! ## Copper of a net -/

/-- An item that can belong to an island. -/
inductive CopperItem
  | track (id : Nat) (track : Track)
  | pad (id : Nat) (pad : Pad)
  deriving DecidableEq, Repr

/-- Does the pad connect to one of the ends of the track? -/
def Pad.meets (pad : Pad) (t : Track) : Bool :=
  pad.hits t.start t.layers || pad.hits t.stop t.layers

def CopperItem.joined : CopperItem → CopperItem → Bool
  | .track _ t, .track _ u => t.touches u
  | .track _ t, .pad _ p | .pad _ p, .track _ t => p.meets t
  | .pad .., .pad .. => false

namespace Board

/-- Live tracks of a net in sequence order, then its pads. -/
def copperOf (b : Board) (net : UInt32) : List CopperItem :=
  ((b.tracks.filter fun entry => entry.2.net == net).map fun entry =>
      .track entry.1 entry.2) ++
    ((b.pads.zipIdx.filter fun entry => entry.1.net == net).map fun entry =>
      .pad entry.2 entry.1)

end Board

/-! ## Counting -/

structure NetIslands where
  net : UInt32
  items : Nat
  islands : Nat
  deriving DecidableEq, Repr

/-- Connections that are missing for the net to be routed. -/
def NetIslands.unrouted (n : NetIslands) : Nat := n.islands - 1

namespace Board

def islandsOf (b : Board) (net : UInt32) : NetIslands :=
  let items := b.copperOf net
  ⟨net, items.length, (groups CopperItem.joined items).length⟩

/-- Islands of every net of the board, in ascending order of nets. -/
def islands (b : Board) : List NetIslands := b.nets.map b.islandsOf

end Board

/-- Missing connections over all nets. -/
def totalUnrouted (islands : List NetIslands) : Nat :=
  (islands.map (·.unrouted)).foldl (· + ·) 0

end CopperTidy
