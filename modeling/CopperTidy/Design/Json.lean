import CopperTidy.Design.Basic
import CopperTidy.Json.Writer

/-! # Designs as JSON

Every record is an object with its fields in a fixed order. The place of an item in the document is
left out.
-/

namespace CopperTidy.Design
set_option autoImplicit false

def Position.json (p : Position) : Json := .object [("x", .float p.x), ("y", .float p.y)]

def LayerType.name : LayerType → String
  | .signal => "Signal"
  | .power => "Power"
  | .mixed => "Mixed"
  | .jumper => "Jumper"
  | .user => "User"
  | .unknown => "Unknown"

def PadType.name : PadType → String
  | .thruHole => "ThruHole"
  | .smd => "SMD"
  | .connect => "Connect"
  | .npThruHole => "NPThruHole"

def ViaForm.name : ViaForm → String
  | .through => "Through"
  | .blind => "Blind"
  | .buried => "Buried"
  | .micro => "Micro"

def netCode (n : UInt32) : Json := .nat n.toNat

def LayerEntry.json (l : LayerEntry) : Json :=
  .object [("ordinal", netCode l.ordinal), ("canonical_name", .text l.name),
    ("layer_type", .text l.layerType.name), ("user_name", .optional .text l.userName)]

def NetEntry.json (n : NetEntry) : Json := .object [("id", netCode n.id), ("name", .text n.name)]

def PadEntry.json (p : PadEntry) : Json :=
  .object [("number", .text p.number), ("pad_type", .text p.padType.name),
    ("position", p.position.json), ("layers", .list .text p.layers),
    ("net", .optional netCode p.net), ("net_name", .optional .text p.netName)]

def Footprint.json (f : Footprint) : Json :=
  .object [("uuid", .text f.uuid), ("reference", .text f.reference), ("value", .text f.value),
    ("footprint_lib", .text f.library), ("layer", .text f.layer), ("position", f.position.json),
    ("rotation", .float f.rotation), ("pads", .list PadEntry.json f.pads)]

def Segment.json (s : Segment) : Json :=
  .object [("uuid", .text s.uuid), ("start", s.start.json), ("end", s.stop.json),
    ("width", .float s.width), ("layer", .text s.layer), ("net", netCode s.net),
    ("locked", .bool s.locked)]

def Arc.json (a : Arc) : Json :=
  .object [("uuid", .text a.uuid), ("start", a.start.json), ("mid", a.mid.json),
    ("end", a.stop.json), ("width", .float a.width), ("layer", .text a.layer),
    ("net", netCode a.net), ("locked", .bool a.locked)]

def Via.json (v : Via) : Json :=
  .object [("uuid", .text v.uuid), ("position", v.position.json), ("size", .float v.size),
    ("drill", .float v.drill), ("layers", .list .text [v.layers.1, v.layers.2]),
    ("net", netCode v.net), ("via_type", .text v.form.name), ("locked", .bool v.locked)]

def FillEntry.json (f : FillEntry) : Json :=
  .object [("layer", .text f.layer), ("points", .list Position.json f.points)]

def ZoneEntry.json (z : ZoneEntry) : Json :=
  .object [("uuid", .text z.uuid), ("net", netCode z.net), ("net_name", .text z.netName),
    ("layers", .list .text z.layers), ("filled_polygons", .list FillEntry.json z.fills)]

def json (d : Design) : Json :=
  .object [("uuid", .text d.uuid), ("filename", .text d.filename),
    ("version", .optional .text d.version), ("layers", .list LayerEntry.json d.layers),
    ("nets", .list NetEntry.json d.nets), ("footprints", .list Footprint.json d.footprints),
    ("traces", .list Segment.json d.segments), ("arcs", .list Arc.json d.arcs),
    ("vias", .list Via.json d.vias), ("zones", .list ZoneEntry.json d.zones)]

end CopperTidy.Design
