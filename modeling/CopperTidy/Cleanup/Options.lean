import CopperTidy.Json.Decode
import CopperTidy.Json.Reader
import CopperTidy.Json.Writer

/-! # Options of a cleaning

Each pass can be switched off. Options are read from a JSON record in which every field may be
missing; a missing pass is switched on.
-/

namespace CopperTidy
set_option autoImplicit false

structure Options where
  /-- Remove tracks that connect different nets. -/
  removeMisconnected : Bool := true
  /-- Remove stacked through vias, and through vias on pads through all layers. -/
  cleanVias : Bool := true
  /-- Remove null and duplicate segments, merge collinear ones. -/
  mergeSegments : Bool := true
  /-- Remove tracks with an unconnected end. -/
  deleteDangling : Bool := true
  deriving DecidableEq, Repr

namespace Options

/-- All passes switched off. -/
def none : Options := ⟨false, false, false, false⟩

def anyEnabled (o : Options) : Bool :=
  o.removeMisconnected || o.cleanVias || o.mergeSegments || o.deleteDangling

/-- Both options switch a pass on. -/
def restrict (o p : Options) : Options :=
  ⟨o.removeMisconnected && p.removeMisconnected, o.cleanVias && p.cleanVias,
    o.mergeSegments && p.mergeSegments, o.deleteDangling && p.deleteDangling⟩

/-! ## JSON -/

def fieldNames : List String :=
  ["remove_misconnected", "clean_vias", "merge_segments", "delete_dangling"]

def json (o : Options) : Json :=
  .object [("remove_misconnected", .bool o.removeMisconnected), ("clean_vias", .bool o.cleanVias),
    ("merge_segments", .bool o.mergeSegments), ("delete_dangling", .bool o.deleteDangling)]

/-- A pass that may be missing. -/
def pass? : Option Json → Option Bool
  | .none => some true
  | some v => v.asBool?

def ofJson? (v : Json) : Option Options := do
  match ← v.looseRecord? fieldNames with
  | [misconnected, vias, merge, dangling] =>
    some ⟨← pass? misconnected, ← pass? vias, ← pass? merge, ← pass? dangling⟩
  | _ => .none

def read? (text : String) : Option Options := (Json.read? text).bind ofJson?

end Options
end CopperTidy
