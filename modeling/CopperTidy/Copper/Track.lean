import CopperTidy.Copper.Layer
import CopperTidy.Copper.Point

/-! # Tracks

A track is a straight trace, an arc or a via. It has two ends and conducts on a set of layers; a
via has both ends in one place and conducts on all layers it passes.
-/

namespace CopperTidy
set_option autoImplicit false

inductive ViaType
  | through
  | blindBuried
  | micro
  deriving DecidableEq, Repr

/-- What only a via has: its kind, the layers it starts and ends on, and its hole. -/
structure ViaSpan where
  viaType : ViaType
  top : Layer
  bottom : Layer
  drill : Int64
  deriving DecidableEq, Repr

/-- A via from the front to the back layer. -/
def ViaSpan.through (drill : Int64) : ViaSpan := ⟨.through, .front, .back, drill⟩

inductive Shape
  | trace
  /-- A circular arc through `mid`. -/
  | arc (mid : Point)
  | via (span : ViaSpan)
  deriving DecidableEq, Repr

/-- One of the two ends of a track. -/
inductive Side
  | start
  | stop
  deriving DecidableEq, Repr

def Side.opposite : Side → Side
  | .start => .stop
  | .stop => .start

/-- A piece of routed copper. The width of a via is its diameter, and its layer is the topmost one
of its span. -/
structure Track where
  uuid : String
  start : Point
  stop : Point
  width : Int64
  layer : Layer
  net : UInt32
  shape : Shape
  deriving DecidableEq, Repr

namespace Track

/-- A via with both ends at one position. -/
def ofVia (uuid : String) (position : Point) (diameter : Int64) (net : UInt32) (span : ViaSpan) :
    Track :=
  ⟨uuid, position, position, diameter, span.top, net, .via span⟩

/-! ## Kinds -/

def isTrace (t : Track) : Bool :=
  match t.shape with
  | .trace => true
  | _ => false

def isArc (t : Track) : Bool :=
  match t.shape with
  | .arc _ => true
  | _ => false

def isVia (t : Track) : Bool :=
  match t.shape with
  | .via _ => true
  | _ => false

def isThroughVia (t : Track) : Bool :=
  match t.shape with
  | .via span => span.viaType == .through
  | _ => false

/-- The word for this kind of track in reports. -/
def kindName (t : Track) : String :=
  match t.shape with
  | .trace => "segment"
  | .arc _ => "arc"
  | .via _ => "via"

/-! ## Ends -/

def point (t : Track) : Side → Point
  | .start => t.start
  | .stop => t.stop

def setPoint (t : Track) (p : Point) : Side → Track
  | .start => { t with start := p }
  | .stop => { t with stop := p }

def hasEndAt (t : Track) (p : Point) : Bool := t.start == p || t.stop == p

/-! ## Layers -/

/-- Top and bottom layer. A through via passes all layers whatever its span says. -/
def layerPair (t : Track) : Layer × Layer :=
  match t.shape with
  | .trace | .arc _ => (t.layer, t.layer)
  | .via span => if span.viaType = .through then (.front, .back) else (span.top, span.bottom)

/-- The copper layers on which the track conducts. -/
def layers (t : Track) : LayerSet :=
  match t.shape with
  | .trace | .arc _ => .single t.layer
  | .via _ => .span t.layerPair.1 t.layerPair.2

/-- Do two tracks share a layer? -/
def sharesLayer (t u : Track) : Bool := t.layers.intersects u.layers

/-- Do two tracks have an end at one point and share a layer? -/
def touches (t u : Track) : Bool :=
  (u.hasEndAt t.start || u.hasEndAt t.stop) && t.sharesLayer u

theorem sharesLayer_comm (t u : Track) : t.sharesLayer u = u.sharesLayer t :=
  LayerSet.intersects_comm _ _

theorem touches_comm (t u : Track) : t.touches u = u.touches t := by
  simp only [touches, hasEndAt, sharesLayer_comm t u]
  congr 1
  rw [Bool.eq_iff_iff]
  simp only [Bool.or_eq_true, beq_iff_eq]
  grind

end Track
end CopperTidy
