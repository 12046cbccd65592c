/-! # Designs

The parts of a board file that concern copper, as the file gives them: lengths in millimetres,
layers by name. Segments, arcs and vias remember which item of the root list they were read from.
-/

namespace CopperTidy
set_option autoImplicit false

namespace Design

structure Position where
  x : Float
  y : Float

inductive LayerType
  | signal
  | power
  | mixed
  | jumper
  | user
  | unknown
  deriving DecidableEq, Repr

/-- A layer that the file declares. -/
structure LayerEntry where
  ordinal : UInt32
  name : String
  layerType : LayerType
  userName : Option String
  deriving DecidableEq, Repr

/-- A net that the file declares. -/
structure NetEntry where
  id : UInt32
  name : String
  deriving DecidableEq, Repr

inductive PadType
  | thruHole
  | smd
  | connect
  | npThruHole
  deriving DecidableEq, Repr

/-- A pad of a footprint; its position is relative to the footprint. -/
structure PadEntry where
  number : String
  padType : PadType
  position : Position
  layers : List String
  net : Option UInt32
  netName : Option String

structure Footprint where
  uuid : String
  reference : String
  value : String
  library : String
  layer : String
  position : Position
  /-- Degrees, anticlockwise on the screen. -/
  rotation : Float
  pads : List PadEntry

structure Segment where
  uuid : String
  start : Position
  stop : Position
  width : Float
  layer : String
  net : UInt32
  locked : Bool
  node : Nat

structure Arc where
  uuid : String
  start : Position
  mid : Position
  stop : Position
  width : Float
  layer : String
  net : UInt32
  locked : Bool
  node : Nat

inductive ViaForm
  | through
  | blind
  | buried
  | micro
  deriving DecidableEq, Repr

structure Via where
  uuid : String
  position : Position
  size : Float
  drill : Float
  layers : String × String
  net : UInt32
  form : ViaForm
  locked : Bool
  node : Nat

structure FillEntry where
  layer : String
  points : List Position

structure ZoneEntry where
  uuid : String
  net : UInt32
  netName : String
  layers : List String
  fills : List FillEntry

end Design

structure Design where
  uuid : String
  filename : String
  version : Option String
  layers : List Design.LayerEntry
  nets : List Design.NetEntry
  footprints : List Design.Footprint
  segments : List Design.Segment
  arcs : List Design.Arc
  vias : List Design.Via
  zones : List Design.ZoneEntry

namespace Design

/-! ## Names of nets and layers -/

/-- The name of the first net declared with this id. -/
def nameOf? (nets : List NetEntry) (id : UInt32) : Option String :=
  (nets.find? fun net => net.id == id).map (·.name)

/-- The id of the first net declared with this name. -/
def idOf? (nets : List NetEntry) (name : String) : Option UInt32 :=
  (nets.find? fun net => net.name == name).map (·.id)

def netName? (d : Design) (id : UInt32) : Option String := nameOf? d.nets id

def netId? (d : Design) (name : String) : Option UInt32 := idOf? d.nets name

/-- Names of the declared copper layers. -/
def copperLayers (d : Design) : List String :=
  (d.layers.filter fun l => ".Cu".toList.isSuffixOf l.name.toList).map (·.name)

end Design
end CopperTidy
