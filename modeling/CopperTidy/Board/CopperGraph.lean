import CopperTidy.Board.Connection
import CopperTidy.Board.PointTable
import Mathlib.SetTheory.Cardinal.Finite

/-! # The copper of a net as a graph

Nodes are the live tracks and the pads of a net. The edges between tracks come from one pass over a
table of points, in the order in which its entries happen to stand; the edges of a pad come from a
look at its position. Two tracks that meet at both ends have two edges.
-/

namespace CopperTidy
set_option autoImplicit false

/-- Each member of a list with each later one. -/
def pairs {α : Type} : List α → List (α × α)
  | [] => []
  | x :: rest => rest.map (fun y => (x, y)) ++ pairs rest

structure CopperGraph where
  nodes : List Conductor
  edges : List (Conductor × Conductor)
  deriving DecidableEq, Repr

/-- The number of connected components. -/
noncomputable def CopperGraph.components (g : CopperGraph) : Nat :=
  Nat.card (Quot fun x y : { x // x ∈ g.nodes } => (x.1, y.1) ∈ g.edges)

namespace Board

def tracksInNet (b : Board) (net : UInt32) : List (Nat × Track) :=
  b.tracks.filter fun entry => entry.2.net == net

def netTable (b : Board) (net : UInt32) : PointTable := .ofTracks (b.tracksInNet net)

/-- Do two live tracks share a layer? -/
def shareLayer (b : Board) (m n : Nat) : Bool :=
  (b.track? m).any fun t => (b.track? n).any fun u => t.sharesLayer u

def netGraph (b : Board) (net : UInt32) (table : PointTable) : CopperGraph :=
  let pads := b.pads.zipIdx.filter fun entry => entry.1.net == net
  { nodes := (b.tracksInNet net).map (fun entry => .track entry.1) ++
      pads.map fun entry => .pad entry.2
    edges := (table.entries.flatMap fun entry =>
        ((pairs entry.2).filter fun pair => b.shareLayer pair.1 pair.2).map fun pair =>
          (.track pair.1, .track pair.2)) ++
      pads.flatMap fun entry =>
        ((table.look entry.1.position).filter fun other =>
          (b.track? other).any fun t => entry.1.hits entry.1.position t.layers).map fun other =>
            (.pad entry.2, .track other) }

end Board
end CopperTidy
