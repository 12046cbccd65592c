import CopperTidy.Copper.Layer
import CopperTidy.Copper.Point

/-! # Pads

A pad is a terminal of a component. It connects what ends exactly at its position on one of its
layers; a hole without plating connects nothing.
-/

namespace CopperTidy
set_option autoImplicit false

inductive PadKind
  | throughHole
  | smd
  | nonPlated
  deriving DecidableEq, Repr

structure Pad where
  reference : String
  number : String
  position : Point
  net : UInt32
  layers : LayerSet
  kind : PadKind
  deriving DecidableEq, Repr

namespace Pad

/-- Does the pad connect to copper that ends at `p` on `layers`? -/
def hits (pad : Pad) (p : Point) (layers : LayerSet) : Bool :=
  pad.kind != .nonPlated && pad.position == p && pad.layers.intersects layers

def onAllCopper (pad : Pad) : Bool := pad.layers.coversAllCopper

/-- The component and the number of the pad. -/
def name (pad : Pad) : String := pad.reference ++ "." ++ pad.number

end Pad
end CopperTidy
