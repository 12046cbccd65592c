import CopperTidy.Proofs.Document.Edited

/-! # What a loaded board holds

The segments, arcs and vias of a file come in three lists. On the board they stand in one sequence,
by nets and within a net by their place in the file, and the sources lead from each track back to
the item that it was read from. Nothing is lost on the way, and nothing comes twice.
-/

namespace CopperTidy
set_option autoImplicit false

/-- The live tracks stand in the order of their nets. -/
def Board.NetSorted (b : Board) : Prop := b.tracks.Pairwise fun x y => x.2.net ≤ y.2.net

/-- What a piece of copper is called, its net and kind, and the number of its item in the file. -/
structure Wire where
  uuid : String
  net : UInt32
  kind : String
  node : Nat
  deriving DecidableEq, Repr

/-- The wires that a design has for a board: segments and arcs on copper layers, and all vias. -/
def Design.wires (d : Design) : List Wire :=
  ((d.segments.filter fun s => (Layer.ofName? s.layer).isSome).map fun s =>
      ⟨s.uuid, s.net, "segment", s.node⟩) ++
    ((d.arcs.filter fun a => (Layer.ofName? a.layer).isSome).map fun a =>
      ⟨a.uuid, a.net, "arc", a.node⟩) ++
    d.vias.map fun v => ⟨v.uuid, v.net, "via", v.node⟩

/-- The wires on a loaded board, source by source. -/
def LoadedBoard.wires (l : LoadedBoard) : List Wire :=
  l.sources.filterMap fun source =>
    (l.board.track? source.1).map fun t => ⟨t.uuid, t.net, t.kindName, source.2⟩

namespace Design

/-! ## Ids -/

theorem toBoard_packed (d : Design) :
    d.toBoard.board.slots = (d.sortedTracks.map (·.1)).map some := by
  rw [toBoard_slots, List.map_map]
  rfl

theorem toBoard_ids (d : Design) : d.toBoard.board.ids = List.range d.sortedTracks.length := by
  rw [Board.ids_of_slots d.toBoard_packed, List.length_map]

theorem sources_ids (d : Design) :
    d.toBoard.sources.map (·.1) = List.range d.sortedTracks.length :=
  (Document.Loads.sources_ids ⟨.list [], d, none⟩).trans d.toBoard_ids

/-! ## Wires -/

def wireOf (entry : Track × Nat) : Wire :=
  ⟨entry.1.uuid, entry.1.net, entry.1.kindName, entry.2⟩

theorem toBoard_wires (d : Design) : d.toBoard.wires = d.sortedTracks.map wireOf := by
  have each : ∀ entry ∈ d.sortedTracks.zipIdx,
      ((d.toBoard.board.track? entry.2).map fun t =>
        (⟨t.uuid, t.net, t.kindName, entry.1.2⟩ : Wire)) = some (wireOf entry.1) := by
    rintro ⟨⟨t, node⟩, id⟩ mem
    have there : d.sortedTracks[id]? = some (t, node) := List.mem_zipIdx_iff_getElem?.mp mem
    rw [track?_toBoard, there]
    rfl
  show (d.sortedTracks.zipIdx.map fun entry => (entry.2, entry.1.2)).filterMap _ = _
  rw [List.filterMap_map]
  calc
    _ = d.sortedTracks.zipIdx.filterMap fun entry => some (wireOf entry.1) :=
      List.filterMap_congr each
    _ = (d.sortedTracks.zipIdx.map (·.1)).map wireOf := by
      rw [List.filterMap_eq_map', List.map_map]
      rfl
    _ = _ := by rw [List.zipIdx_map_fst]

theorem tracks_wires (d : Design) : d.tracks.map wireOf = d.wires := by
  have segments (ss : List Segment) :
      (ss.filterMap fun s => s.toTrack?.map (·, s.node)).map wireOf =
        (ss.filter fun s => (Layer.ofName? s.layer).isSome).map fun s =>
          ⟨s.uuid, s.net, "segment", s.node⟩ := by
    induction ss with
    | nil => rfl
    | cons s ss ih =>
      rw [List.filterMap_cons, List.filter_cons, Segment.toTrack?]
      cases Layer.ofName? s.layer with
      | none => exact ih
      | some layer => exact congrArg _ ih
  have arcs (as : List Arc) :
      (as.filterMap fun a => a.toTrack?.map (·, a.node)).map wireOf =
        (as.filter fun a => (Layer.ofName? a.layer).isSome).map fun a =>
          ⟨a.uuid, a.net, "arc", a.node⟩ := by
    induction as with
    | nil => rfl
    | cons a as ih =>
      rw [List.filterMap_cons, List.filter_cons, Arc.toTrack?]
      cases Layer.ofName? a.layer with
      | none => exact ih
      | some layer => exact congrArg _ ih
  rw [tracks, List.map_append, List.map_append, segments, arcs, List.map_map]
  rfl

theorem toBoard_wires_perm (d : Design) : d.toBoard.wires.Perm d.wires := by
  rw [toBoard_wires, ← tracks_wires]
  exact (List.mergeSort_perm _ _).map _

/-! ## The order on the board -/

theorem net_le_of_precedes {a b : Track × Nat} (h : precedes a b = true) : a.1.net ≤ b.1.net := by
  simp only [precedes, Bool.or_eq_true, Bool.and_eq_true, decide_eq_true_eq, beq_iff_eq] at h
  rcases h with less | ⟨same, _⟩
  · exact UInt32.le_of_lt less
  · rw [same]
    exact UInt32.le_refl _

theorem sorted_nets (d : Design) :
    (d.sortedTracks.map (·.1)).Pairwise fun t u => t.net ≤ u.net := by
  rw [List.pairwise_map]
  exact (pairwise_sorted d.tracks).imp net_le_of_precedes

theorem live_toBoard (d : Design) :
    d.toBoard.board.slots.filterMap id = d.sortedTracks.map (·.1) := by
  rw [toBoard_packed, List.filterMap_map]
  exact List.filterMap_some

theorem netSorted_toBoard (d : Design) : d.toBoard.board.NetSorted := by
  have nets := d.sorted_nets
  rw [← live_toBoard, ← Board.map_numbered 0, List.pairwise_map] at nets
  exact nets

/-- Tracks that stand in the order of their nets, without gaps, are not moved by sorting. -/
theorem sortByNet_toBoard (d : Design) :
    d.toBoard.board.sortByNet.slots = d.toBoard.board.slots := by
  have sorted := d.sorted_nets.imp fun {t u} h => (decide_eq_true h : decide (t.net ≤ u.net) = true)
  show ((d.toBoard.board.slots.filterMap id).mergeSort fun t u => t.net ≤ u.net).map some = _
  rw [live_toBoard, List.mergeSort_of_pairwise sorted, toBoard_packed]

/-! ## Items of the file -/

section Read

variable {d : Design} {items : List SExpr} {found : List Item}

theorem Gathers.numbers_apart (gathers : d.Gathers found)
    (read : itemsFrom (netEntries items) 0 items = .ok found) :
    (d.sortedTracks.map (·.2)).Nodup := by
  have apart : ((found.filterMap Item.placed?).map (·.2)).Nodup := by
    rw [List.Nodup, List.pairwise_map]
    exact (placed_ascending read).1.imp Nat.ne_of_lt
  exact (((List.mergeSort_perm _ _).trans gathers.tracks_perm).map _).nodup_iff.mpr apart

/-- By nets, and strictly so within a net, since no two tracks come from one item. -/
theorem Gathers.wires_ascending (gathers : d.Gathers found)
    (read : itemsFrom (netEntries items) 0 items = .ok found) :
    d.toBoard.wires.Pairwise fun v w => v.net < w.net ∨ v.net = w.net ∧ v.node < w.node := by
  have apart := List.pairwise_map.mp (gathers.numbers_apart read)
  rw [toBoard_wires, List.pairwise_map]
  refine ((pairwise_sorted d.tracks).and apart).imp ?_
  rintro a b ⟨order, ne⟩
  simp only [precedes, Bool.or_eq_true, Bool.and_eq_true, decide_eq_true_eq, beq_iff_eq] at order
  rcases order with less | ⟨same, le⟩
  · exact .inl less
  · exact .inr ⟨same, Nat.lt_of_le_of_ne le ne⟩

/-- A source leads to the item that its track was read from. -/
theorem Gathers.source (gathers : d.Gathers found)
    (read : itemsFrom (netEntries items) 0 items = .ok found) {id k : Nat}
    (mem : (id, k) ∈ d.toBoard.sources) :
    ∃ t e item, d.toBoard.board.track? id = some t ∧ items[k]? = some e ∧
      Source (netEntries items) k e item t := by
  obtain ⟨t, there⟩ := mem_sources.mp mem
  have listed := ((List.mergeSort_perm _ _).trans gathers.tracks_perm).subset
    (List.mem_of_getElem? there)
  obtain ⟨item, inside, placed⟩ := List.mem_filterMap.mp listed
  obtain ⟨i, e, here, itemHere⟩ := Document.Loads.mem_found read inside
  rw [Nat.zero_add] at itemHere
  cases node_of_itemIfAny? itemHere placed
  refine ⟨t, e, item, ?_, here, source_of_placed itemHere placed⟩
  rw [track?_toBoard, there]
  rfl

theorem Source.tag_eq {nets : List NetEntry} {m : Nat} {e : SExpr} {item : Item} {t : Track}
    (h : Source nets m e item t) : e.tag? = some t.kindName := by
  cases h with
  | segment tag _ track =>
    obtain ⟨layer, _, rfl⟩ := Option.map_eq_some_iff.mp track
    exact tag
  | arc tag _ track =>
    obtain ⟨layer, _, rfl⟩ := Option.map_eq_some_iff.mp track
    exact tag
  | via tag => exact tag

end Read

/-- The board of a design that was read has its tracks under the ids from zero on, without a gap, in
the strict order of nets and items. They are just the segments and arcs on copper layers and the
vias, each once. The sources have one entry for each id, lead to different items, and lead each
track to the item of its kind that it was read from. The pads stand footprint by footprint, one for
each that was read. Sorting by nets moves nothing. -/
theorem toBoard_complete {filename : String} {root : SExpr} {d : Design}
    (read : ofTree filename root = .ok d) :
    let l := d.toBoard
    let n := d.wires.length
    l.board.slots.length = n ∧ l.board.ids = List.range n ∧
    l.wires.Pairwise (fun v w => v.net < w.net ∨ v.net = w.net ∧ v.node < w.node) ∧
    l.wires.Perm d.wires ∧
    l.sources.map (·.1) = List.range n ∧ (l.sources.map (·.2)).Nodup ∧
    (∃ items, root = .list items ∧ ∀ id k, (id, k) ∈ l.sources →
      ∃ t e item, l.board.track? id = some t ∧ items[k]? = some e ∧
        e.tag? = some t.kindName ∧ Source (netEntries items) k e item t) ∧
    l.board.pads = d.footprints.flatMap (fun f => f.pads.map (PadEntry.toPad f)) ∧
    l.board.sortByNet.slots = l.board.slots := by
  intro l n
  cases root with
  | atom s => cases read
  | quoted s => cases read
  | list items =>
    obtain ⟨found, readItems, gathers⟩ := gathers_of_ofTree read
    have size : n = d.sortedTracks.length := by
      rw [← List.length_map (f := wireOf), ← toBoard_wires]
      exact d.toBoard_wires_perm.length_eq.symm
    rw [size]
    refine ⟨?_, d.toBoard_ids, gathers.wires_ascending readItems, d.toBoard_wires_perm,
      d.sources_ids, ?_, ⟨items, rfl, fun id k mem => ?_⟩, d.toBoard_pads, d.sortByNet_toBoard⟩
    · show d.toBoard.board.slots.length = _
      rw [toBoard_slots, List.length_map]
    · show (d.toBoard.sources.map (·.2)).Nodup
      rw [sources_numbers]
      exact gathers.numbers_apart readItems
    · obtain ⟨t, e, item, live, here, source⟩ := gathers.source readItems mem
      exact ⟨t, e, item, live, here, source.tag_eq, source⟩

/-- A via of the second net, a segment off copper, and an arc and a segment of the first net. -/
def crossed : SExpr :=
  let field (key : String) (texts : List String) : SExpr := .list (.atom key :: texts.map .atom)
  let wire (kind uuid net layer : String) : SExpr :=
    .list [.atom kind, field "uuid" [uuid], field "net" [net], field "layer" [layer],
      field "width" ["1"], field "start" ["0", "0"], field "mid" ["1", "1"], field "end" ["2", "0"]]
  .list [.atom "kicad_pcb",
    .list [.atom "via", field "uuid" ["v"], field "net" ["2"], field "at" ["2", "0"],
      field "size" ["1"]],
    wire "segment" "s" "1" "F.SilkS", wire "arc" "a" "1" "B.Cu", wire "segment" "t" "1" "In1.Cu"]

theorem toBoard_complete_crossed : ∃ d, ofTree "crossed.kicad_pcb" crossed = .ok d ∧
    d.wires = [⟨"t", 1, "segment", 4⟩, ⟨"a", 1, "arc", 3⟩, ⟨"v", 2, "via", 1⟩] ∧
    d.toBoard.wires.Perm d.wires ∧
    d.toBoard.wires.Pairwise (fun v w => v.net < w.net ∨ v.net = w.net ∧ v.node < w.node) ∧
    d.toBoard.board.ids = [0, 1, 2] ∧ d.toBoard.sources.map (·.1) = [0, 1, 2] := by
  have seen : (ofTree "crossed.kicad_pcb" crossed).toOption.map wires =
      some [⟨"t", 1, "segment", 4⟩, ⟨"a", 1, "arc", 3⟩, ⟨"v", 2, "via", 1⟩] := by decide +kernel
  cases read : ofTree "crossed.kicad_pcb" crossed with
  | error cause =>
    rw [read] at seen
    cases seen
  | ok d =>
    rw [read] at seen
    have wires : d.wires = _ := Option.some.inj seen
    obtain ⟨_, ids, ascending, perm, sources, _⟩ := toBoard_complete read
    rw [wires] at ids sources
    exact ⟨d, rfl, wires, perm, ascending, ids, sources⟩

end Design
end CopperTidy
