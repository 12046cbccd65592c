import CopperTidy.Board.Change
import CopperTidy.Json.Decode
import CopperTidy.Json.Reader
import CopperTidy.Json.Writer

/-! # Changes as JSON

The form in which changes are kept. A record is an object with its fields in a fixed order; a kind
of change, of track or of via is a variant. `Change.writeAll` and `Change.readAll?` go between a
list of changes and its text.
-/

namespace CopperTidy
set_option autoImplicit false

/-! ## Writing -/

def Point.json (p : Point) : Json := .object [("x", .int p.x.toInt), ("y", .int p.y.toInt)]

def Layer.json (l : Layer) : Json := .nat l.number.toNat

def ViaType.name : ViaType → String
  | .through => "Through"
  | .blindBuried => "BlindBuried"
  | .micro => "Micro"

def ViaType.all : List ViaType := [.through, .blindBuried, .micro]

def ViaSpan.json (s : ViaSpan) : Json :=
  .object [("via_type", .text s.viaType.name), ("top", s.top.json), ("bottom", s.bottom.json),
    ("drill", .int s.drill.toInt)]

def Shape.json : Shape → Json
  | .trace => .text "Trace"
  | .arc mid => .object [("Arc", .object [("mid", mid.json)])]
  | .via span => .object [("Via", span.json)]

def Track.json (t : Track) : Json :=
  .object [("uuid", .text t.uuid), ("start", t.start.json), ("end", t.stop.json),
    ("width", .int t.width.toInt), ("layer", t.layer.json), ("net", .nat t.net.toNat),
    ("kind", t.shape.json)]

def Change.json : Change → Json
  | .removed id track reason =>
    .object [("Removed", .object [("id", .nat id), ("track", track.json),
      ("reason", .text reason.name)])]
  | .modified id before after =>
    .object [("Modified", .object [("id", .nat id), ("before", before.json),
      ("after", after.json)])]

/-! ## Reading -/

def Point.ofJson? (v : Json) : Option Point := do
  match ← v.record? ["x", "y"] with
  | [x, y] => some ⟨← x.asInt64?, ← y.asInt64?⟩
  | _ => none

def Layer.ofJson? (v : Json) : Option Layer := v.asUInt8?.map Layer.mk

def ViaType.ofName? (name : String) : Option ViaType := all.find? fun t => t.name == name

def ViaType.ofJson? (v : Json) : Option ViaType := v.unitVariant?.bind ofName?

def ViaSpan.ofJson? (v : Json) : Option ViaSpan := do
  match ← v.record? ["via_type", "top", "bottom", "drill"] with
  | [viaType, top, bottom, drill] =>
    some ⟨← ViaType.ofJson? viaType, ← Layer.ofJson? top, ← Layer.ofJson? bottom,
      ← drill.asInt64?⟩
  | _ => none

def Shape.ofJson? (v : Json) : Option Shape := do
  match ← v.variant? with
  | ("Trace", none) | ("Trace", some .null) => some .trace
  | ("Arc", some content) =>
    match ← content.record? ["mid"] with
    | [mid] => some (.arc (← Point.ofJson? mid))
    | _ => none
  | ("Via", some content) => some (.via (← ViaSpan.ofJson? content))
  | _ => none

def Track.ofJson? (v : Json) : Option Track := do
  match ← v.record? ["uuid", "start", "end", "width", "layer", "net", "kind"] with
  | [uuid, start, stop, width, layer, net, kind] =>
    some ⟨← uuid.asString?, ← Point.ofJson? start, ← Point.ofJson? stop, ← width.asInt64?,
      ← Layer.ofJson? layer, ← net.asUInt32?, ← Shape.ofJson? kind⟩
  | _ => none

def Reason.ofName? (name : String) : Option Reason := all.find? fun r => r.name == name

def Reason.ofJson? (v : Json) : Option Reason := v.unitVariant?.bind ofName?

/-- Ids are 64-bit numbers. -/
def trackId? (v : Json) : Option Nat := v.asNat? UInt64.size

def Change.ofJson? (v : Json) : Option Change := do
  match ← v.variant? with
  | ("Removed", some content) =>
    match ← content.record? ["id", "track", "reason"] with
    | [id, track, reason] =>
      some (.removed (← trackId? id) (← Track.ofJson? track) (← Reason.ofJson? reason))
    | _ => none
  | ("Modified", some content) =>
    match ← content.record? ["id", "before", "after"] with
    | [id, before, after] =>
      some (.modified (← trackId? id) (← Track.ofJson? before) (← Track.ofJson? after))
    | _ => none
  | _ => none

/-! ## Lists of changes -/

def Change.writeAll (changes : List Change) : String := (Json.list Change.json changes).write

def Change.readAll? (text : String) : Option (List Change) :=
  (Json.read? text).bind (Json.asList? Change.ofJson?)

end CopperTidy
