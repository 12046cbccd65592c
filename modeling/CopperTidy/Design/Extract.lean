import CopperTidy.Decimal.Text
import CopperTidy.Design.Basic
import CopperTidy.SExpr.Reader

/-! # Reading a design

`Design.ofTree` picks the copper out of the tree of a board file. Nets and layers are read first,
since items may name their net. An item with a missing or unreadable field is left out, but a
coordinate that no board can hold is an error of the whole file.
-/

namespace CopperTidy
set_option autoImplicit false

/-- Why a board file gives no design, or cannot be brought in line with a board. -/
inductive DesignError
  | unreadable (cause : SExpr.ReadError)
  | wrongRoot (tag : String)
  | untaggedRoot
  | rootNotList
  /-- A track is said to come from a place that the document does not have. -/
  | strayTrack (id : Nat)
  | outOfRange (key : String) (value : Float)

def DesignError.message : DesignError → String
  | .unreadable cause => "S-expression parse error: " ++ cause.message
  | .wrongRoot tag => "Invalid PCB format: Expected kicad_pcb, found " ++ tag
  | .untaggedRoot => "Invalid PCB format: Expected kicad_pcb root"
  | .rootNotList => "Invalid PCB format: Root must be a list"
  | .strayTrack id =>
    "Invalid PCB format: Track #" ++ toString id ++ " points outside the document"
  | .outOfRange key value =>
    "Coordinate out of range in '" ++ key ++ "': " ++ Decimal.plain value ++ " mm"

namespace Design

/-- Why an item of the file cannot be read. -/
inductive ItemError
  /-- A field is missing or malformed. -/
  | malformed
  | outOfRange (key : String) (value : Float)

/-- Name of an item that has none of its own. -/
def unnamed : String := "<generated>"

/-- The largest coordinate of a board, in millimetres: that many nanometres fit in 32 bits. -/
def maxCoordinate : Float := 2147.483647

/-! ## Fields -/

/-- A field that must be there. -/
def required {α : Type} : Option α → Except ItemError α
  | some x => .ok x
  | none => .error .malformed

def float? (e : SExpr) (key : String) (n : Nat) : Option Float :=
  (e.value? key n).bind Decimal.read?

def readNet? (text : String) : Option UInt32 :=
  (Text.readNatural? UInt32.size text).map UInt32.ofNat

/-- The name of an item: its `uuid`, or the `tstamp` of older files. -/
def uuidOf (e : SExpr) : String :=
  ((e.value? "uuid" 0).or (e.value? "tstamp" 0)).getD unnamed

def inRange (value : Float) : Bool := Decimal.isFinite value && !decide (value.abs > maxCoordinate)

/-- The two numbers of the item tagged `key`, both within the range of a board. -/
def position (e : SExpr) (key : String) : Except ItemError Position := do
  let x ← required (float? e key 0)
  let y ← required (float? e key 1)
  if !inRange x then .error (.outOfRange key x)
  else if !inRange y then .error (.outOfRange key y)
  else .ok ⟨x, y⟩

/-- The net that an item names by number or by name. -/
def netOf? (nets : List NetEntry) (e : SExpr) : Option UInt32 :=
  (e.value? "net" 0).bind fun text => (readNet? text).or (idOf? nets text)

/-! ## Declarations -/

def layerType : String → LayerType
  | "signal" => .signal
  | "power" => .power
  | "mixed" => .mixed
  | "jumper" => .jumper
  | "user" => .user
  | _ => .unknown

/-- A declared layer: a list of ordinal, name, type and perhaps a name given by the user. -/
def layerEntry? (e : SExpr) : Option LayerEntry :=
  match e.items with
  | ordinal :: name :: kind :: more => some
    { ordinal := (ordinal.text?.bind readNet?).getD 0
      name := name.text?.getD ""
      layerType := layerType (kind.text?.getD "signal")
      userName := more.head?.bind SExpr.text? }
  | _ => none

def layerEntries (e : SExpr) : List LayerEntry := (e.items.drop 1).filterMap layerEntry?

def netEntry? (e : SExpr) : Option NetEntry :=
  match e.items with
  | _ :: id :: name :: _ => (id.text?.bind readNet?).map fun id => ⟨id, name.text?.getD ""⟩
  | _ => none

/-! ## Footprints -/

def padType : String → PadType
  | "thru_hole" => .thruHole
  | "connect" => .connect
  | "np_thru_hole" => .npThruHole
  | _ => .smd

/-- The texts of the item tagged `key`, without the tag. -/
def texts (e : SExpr) (key : String) : List String :=
  match e.child? key with
  | some child => (child.items.drop 1).filterMap SExpr.text?
  | none => []

def padEntry (nets : List NetEntry) (e : SExpr) : Except ItemError PadEntry := do
  match e.items with
  | _ :: number :: kind :: _ :: _ =>
    let place ← position e "at"
    let net := netOf? nets e
    return {
      number := number.text?.getD ""
      padType := padType (kind.text?.getD "")
      position := place
      layers := texts e "layers"
      net := net
      netName := (e.value? "net" 1).or (net.bind (nameOf? nets)) }
  | _ => .error .malformed

/-- The readable pads; a malformed one is left out. -/
def padEntries (nets : List NetEntry) : List SExpr → Except ItemError (List PadEntry)
  | [] => .ok []
  | e :: rest =>
    match padEntry nets e with
    | .ok pad => (padEntries nets rest).map (pad :: ·)
    | .error .malformed => padEntries nets rest
    | .error (.outOfRange key value) => .error (.outOfRange key value)

/-- The last text that follows `word` in an item tagged `key`. -/
def lastLabel? (e : SExpr) (key word : String) : Option String :=
  ((e.children key).filterMap fun item =>
    if (item.items[1]?.bind SExpr.text?) = some word then item.items[2]?.bind SExpr.text?
    else none).getLast?

/-- A label of a footprint: a property, or in older files a text of the footprint. -/
def label (e : SExpr) (property text : String) : String :=
  ((lastLabel? e "fp_text" text).or (lastLabel? e "property" property)).getD ""

def footprint (nets : List NetEntry) (e : SExpr) : Except ItemError Footprint := do
  let place ← position e "at"
  let pads ← padEntries nets (e.children "pad")
  return {
    uuid := uuidOf e
    reference := label e "Reference" "reference"
    value := label e "Value" "value"
    library := (e.items[1]?.bind SExpr.text?).getD ""
    layer := (e.value? "layer" 0).getD "F.Cu"
    position := place
    rotation := (float? e "at" 2).getD 0
    pads := pads }

/-! ## Tracks -/

def segment (nets : List NetEntry) (node : Nat) (e : SExpr) : Except ItemError Segment := do
  let start ← position e "start"
  let stop ← position e "end"
  let width ← required (float? e "width" 0)
  let layer ← required (e.value? "layer" 0)
  return {
    uuid := uuidOf e, start, stop, width, layer
    net := (netOf? nets e).getD 0
    locked := e.hasFlag "locked"
    node }

def arc (nets : List NetEntry) (node : Nat) (e : SExpr) : Except ItemError Arc := do
  let start ← position e "start"
  let mid ← position e "mid"
  let stop ← position e "end"
  let width ← required (float? e "width" 0)
  let layer ← required (e.value? "layer" 0)
  return {
    uuid := uuidOf e, start, mid, stop, width, layer
    net := (netOf? nets e).getD 0
    locked := e.hasFlag "locked"
    node }

/-- A via is told to be no through via by a bare symbol. -/
def viaForm (e : SExpr) : ViaForm :=
  if e.hasFlag "micro" then .micro
  else if e.hasFlag "blind" then .blind
  else if e.hasFlag "buried" then .buried
  else .through

def via (nets : List NetEntry) (node : Nat) (e : SExpr) : Except ItemError Via := do
  let place ← position e "at"
  let size ← required (float? e "size" 0)
  return {
    uuid := uuidOf e
    position := place
    size
    drill := (float? e "drill" 0).getD 0
    layers := ((e.value? "layers" 0).getD "F.Cu", (e.value? "layers" 1).getD "B.Cu")
    net := (netOf? nets e).getD 0
    form := viaForm e
    locked := e.hasFlag "locked"
    node }

/-! ## Zones -/

/-- The points of an outline; an unreadable one is left out. -/
def outline (e : SExpr) : List Position :=
  (e.children "xy").filterMap fun xy =>
    match (xy.items[1]?.bind SExpr.text?).bind Decimal.read?,
        (xy.items[2]?.bind SExpr.text?).bind Decimal.read? with
    | some x, some y => some ⟨x, y⟩
    | _, _ => none

def zone (nets : List NetEntry) (e : SExpr) : ZoneEntry :=
  let layers := (e.value? "layer" 0).toList ++ texts e "layers"
  { uuid := uuidOf e
    net := (netOf? nets e).getD 0
    netName := (e.value? "net_name" 0).getD ""
    layers
    fills := (e.children "filled_polygon").map fun fill =>
      { layer := (fill.value? "layer" 0).getD (layers.head?.getD "")
        points := ((fill.child? "pts").map outline).getD [] } }

/-! ## The whole file -/

/-- An item of the root list that holds copper. -/
inductive Item
  | footprint (f : Footprint)
  | segment (s : Segment)
  | arc (a : Arc)
  | via (v : Via)
  | zone (z : ZoneEntry)

/-- The item that the root list holds at `node`, if it is one. -/
def item? (nets : List NetEntry) (node : Nat) (e : SExpr) : Except ItemError (Option Item) :=
  match e.tag? with
  | some "footprint" | some "module" => (footprint nets e).map (some ∘ .footprint)
  | some "segment" => (segment nets node e).map (some ∘ .segment)
  | some "arc" => (arc nets node e).map (some ∘ .arc)
  | some "via" => (via nets node e).map (some ∘ .via)
  | some "zone" => .ok (some (.zone (zone nets e)))
  | _ => .ok none

/-- The items of a root list from number `node` on. A malformed one is left out. -/
def itemsFrom (nets : List NetEntry) (node : Nat) : List SExpr → Except DesignError (List Item)
  | [] => .ok []
  | e :: rest =>
    match item? nets node e with
    | .ok (some item) => (itemsFrom nets (node + 1) rest).map (item :: ·)
    | .ok none | .error .malformed => itemsFrom nets (node + 1) rest
    | .error (.outOfRange key value) => .error (.outOfRange key value)

/-- The nets that a root list declares. -/
def netEntries (root : List SExpr) : List NetEntry :=
  ((root.drop 1).filter (SExpr.hasTag "net")).filterMap netEntry?

/-- The layers of the last section that declares layers. -/
def layersOf (root : List SExpr) : List LayerEntry :=
  match ((root.drop 1).filter (SExpr.hasTag "layers")).getLast? with
  | some e => layerEntries e
  | none => []

/-- The design of a tree whose root is a list, whatever its tag. -/
def ofTree (filename : String) (root : SExpr) : Except DesignError Design :=
  match root with
  | .list items => do
    let nets := netEntries items
    let found ← itemsFrom nets 0 items
    return {
      uuid := (root.value? "uuid" 0).getD unnamed
      filename
      version := root.value? "version" 0
      layers := layersOf items
      nets
      footprints := found.filterMap fun | .footprint f => some f | _ => none
      segments := found.filterMap fun | .segment s => some s | _ => none
      arcs := found.filterMap fun | .arc a => some a | _ => none
      vias := found.filterMap fun | .via v => some v | _ => none
      zones := found.filterMap fun | .zone z => some z | _ => none }
  | _ => .error .rootNotList

/-- The tree of a board file; its root must be tagged `kicad_pcb`. -/
def readRoot (text : String) : Except DesignError SExpr :=
  match SExpr.read text with
  | .error e => .error (.unreadable e)
  | .ok root =>
    match root.tag? with
    | some tag => if tag = "kicad_pcb" then .ok root else .error (.wrongRoot tag)
    | none => .error .untaggedRoot

/-- The design of a board file. -/
def read (filename text : String) : Except DesignError Design := do
  ofTree filename (← readRoot text)

end Design
end CopperTidy
