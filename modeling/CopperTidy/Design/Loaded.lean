import CopperTidy.Board.Basic
import CopperTidy.Design.Basic

/-! # From a design to a board

`Design.toBoard` gives the board of a design: positions of pads become absolute, layer names become
layers, and the tracks stand in the order of their nets. The loaded board remembers which item of
the document each track came from, so that a cleaned board can be written back.
-/

namespace CopperTidy
set_option autoImplicit false

structure LoadedBoard where
  board : Board
  /-- For each track the number of its item in the root list of the document. -/
  sources : List (Nat × Nat)
  deriving DecidableEq, Repr

namespace Design

/-! ## Geometry -/

/-- One degree in radians. -/
def degree : Float := 0.017453292519943295

/-- An offset turned anticlockwise on the screen, where `y` points down. -/
def rotate (x y degrees : Float) : Float × Float :=
  if degrees == 0 then (x, y)
  else
    let sine := Float.sin (degrees * degree)
    let cosine := Float.cos (degrees * degree)
    (x * cosine + y * sine, -x * sine + y * cosine)

/-- The length of a segment in millimetres. -/
def Segment.length (s : Segment) : Float :=
  Decimal.hypotenuse (s.stop.x - s.start.x) (s.stop.y - s.start.y)

def Position.toPoint (p : Position) : Point := ⟨toNm p.x, toNm p.y⟩

/-! ## Tracks -/

/-- A segment on a copper layer as a trace. -/
def Segment.toTrack? (s : Segment) : Option Track :=
  (Layer.ofName? s.layer).map fun layer =>
    ⟨s.uuid, s.start.toPoint, s.stop.toPoint, toNm s.width, layer, s.net, .trace⟩

def Arc.toTrack? (a : Arc) : Option Track :=
  (Layer.ofName? a.layer).map fun layer =>
    ⟨a.uuid, a.start.toPoint, a.stop.toPoint, toNm a.width, layer, a.net, .arc a.mid.toPoint⟩

def ViaForm.toViaType : ViaForm → ViaType
  | .through => .through
  | .blind | .buried => .blindBuried
  | .micro => .micro

/-- A layer that is no copper layer gives way to the outer one. -/
def Via.toTrack (v : Via) : Track :=
  .ofVia v.uuid v.position.toPoint (toNm v.size) v.net
    { viaType := v.form.toViaType
      top := (Layer.ofName? v.layers.1).getD .front
      bottom := (Layer.ofName? v.layers.2).getD .back
      drill := toNm v.drill }

/-- All tracks with their items: segments, arcs, vias. -/
def tracks (d : Design) : List (Track × Nat) :=
  (d.segments.filterMap fun s => s.toTrack?.map (·, s.node)) ++
    (d.arcs.filterMap fun a => a.toTrack?.map (·, a.node)) ++
    d.vias.map fun v => (v.toTrack, v.node)

/-- By net, and within a net by place in the document. -/
def precedes (a b : Track × Nat) : Bool :=
  a.1.net < b.1.net || (a.1.net == b.1.net && a.2 ≤ b.2)

def sortedTracks (d : Design) : List (Track × Nat) := d.tracks.mergeSort precedes

/-! ## Pads and zones -/

def PadType.toKind : PadType → PadKind
  | .thruHole => .throughHole
  | .npThruHole => .nonPlated
  | .smd | .connect => .smd

def PadEntry.toPad (f : Footprint) (pad : PadEntry) : Pad :=
  let offset := rotate pad.position.x pad.position.y f.rotation
  { reference := f.reference
    number := pad.number
    position := ⟨toNm (f.position.x + offset.1), toNm (f.position.y + offset.2)⟩
    net := pad.net.getD 0
    layers := .ofPadLayers pad.layers
    kind := pad.padType.toKind }

def pads (d : Design) : List Pad := d.footprints.flatMap fun f => f.pads.map (PadEntry.toPad f)

def FillEntry.toFill? (f : FillEntry) : Option Fill :=
  (Layer.ofName? f.layer).map fun layer => ⟨layer, f.points.map Position.toPoint⟩

/-- A zone with copper; one without a fill on a copper layer has none. -/
def ZoneEntry.toZone? (z : ZoneEntry) : Option Zone :=
  match z.fills.filterMap FillEntry.toFill? with
  | [] => none
  | fills => some ⟨z.net, fills⟩

/-! ## The board -/

/-- The board with its items added one by one: tracks, pads, zones. -/
def toBoard (d : Design) : LoadedBoard :=
  let tracks := d.sortedTracks
  let withTracks := (tracks.map (·.1)).foldl Board.addTrack {}
  let withPads := d.pads.foldl Board.addPad withTracks
  { board := (d.zones.filterMap ZoneEntry.toZone?).foldl Board.addZone withPads
    sources := tracks.zipIdx.map fun entry => (entry.2, entry.1.2) }

end Design
end CopperTidy
