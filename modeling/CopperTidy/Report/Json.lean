import CopperTidy.Report.Basic

/-! # Reports as JSON -/

namespace CopperTidy
set_option autoImplicit false

def Board.Summary.json (s : Board.Summary) : Json :=
  .object [("traces", .nat s.traces), ("arcs", .nat s.arcs), ("vias", .nat s.vias),
    ("pads", .nat s.pads), ("zones", .nat s.zones), ("nets", .nat s.nets)]

def RemovedItem.json (i : RemovedItem) : Json :=
  .object [("uuid", .text i.uuid), ("kind", .text i.kind), ("net", .nat i.net.toNat),
    ("net_name", .optional .text i.netName), ("layer", .text i.layer),
    ("start", .list .float [i.start.1, i.start.2]), ("end", .list .float [i.stop.1, i.stop.2]),
    ("reason", .text i.reason.name)]

def Report.json (r : Report) : Json :=
  .object [("file", .text r.file), ("modified", .bool r.modified),
    ("written", .optional .text r.written), ("options", r.options.json), ("stats", r.stats.json),
    ("removed", .list RemovedItem.json r.removed), ("modified_tracks", .nat r.modifiedTracks),
    ("before", r.before.json), ("after", r.after.json),
    ("unrouted_before", .nat r.unroutedBefore), ("unrouted_after", .nat r.unroutedAfter)]

/-- The reports of a run over several files, with totals; keys in ascending order. -/
def Report.jsonOfAll (reports : List Report) : Json :=
  (Json.object [("results", .list Report.json reports),
    ("summary", .object [("total_files", .nat reports.length),
      ("modified_files", .nat (reports.countP (·.modified))),
      ("removed_items", .nat ((reports.map (·.removed.length)).foldl (· + ·) 0))])]).sorted

def NetLength.json (n : NetLength) : Json :=
  .object [("net", .nat n.net.toNat), ("name", .text n.name), ("length_mm", .float n.lengthMm),
    ("islands", .nat n.islands)]

def BoardStats.json (s : BoardStats) : Json :=
  .object [("file", .text s.file), ("summary", s.summary.json), ("unrouted", .nat s.unrouted),
    ("nets", .list NetLength.json s.nets)]

end CopperTidy
