import CopperTidy.Proofs.Design.Normal
import CopperTidy.Proofs.Document.Revised
import CopperTidy.Proofs.Passes
import CopperTidy.Proofs.SExpr.RoundTrip

/-! # Written back and read again

A board is loaded from a document, cleaned and written back, and the document is printed. Whoever
reads the text has the cleaned board: its live tracks one after the other in the slots, and the same
pads and zones.
-/

namespace CopperTidy
set_option autoImplicit false

namespace Board

theorem map_numbered (first : Nat) (slots : List (Option Track)) :
    (numbered first slots).map (·.2) = slots.filterMap id := by
  induction slots generalizing first with
  | nil => rfl
  | cons slot slots ih =>
    cases slot with
    | none =>
      rw [numbered, ih]
      rfl
    | some t =>
      rw [numbered, List.map_cons, ih]
      rfl

end Board

namespace Document

open Design (Item NetEntry itemIfAny? itemsFrom netEntries)

/-! ## A document that was read -/

/-- The items of a document and what was found in them. -/
structure Loads (d : Document) (items : List SExpr) (found : List Item) : Prop where
  root : d.root = .list items
  tag : (SExpr.list items).tag? = some "kicad_pcb"
  read : itemsFrom (netEntries items) 0 items = .ok found
  gathers : d.design.Gathers found

theorem readRoot_eq_ok_iff {text : String} {root : SExpr} :
    Design.readRoot text = .ok root ↔
      SExpr.read text = .ok root ∧ root.tag? = some "kicad_pcb" := by
  unfold Design.readRoot
  cases SExpr.read text with
  | error cause => simp
  | ok root' =>
    rw [Except.ok.injEq]
    by_cases board : root'.tag? = some "kicad_pcb"
    · simp only [board, if_pos, Except.ok.injEq]
      constructor
      · rintro rfl
        exact ⟨rfl, board⟩
      · exact fun h => h.1
    · constructor
      · intro h
        cases tag : root'.tag? with
        | none =>
          simp only [tag] at h
          cases h
        | some word =>
          have other : word ≠ "kicad_pcb" := fun same => board (same ▸ tag)
          simp only [tag, if_neg other] at h
          cases h
      · rintro ⟨rfl, tag⟩
        exact absurd tag board

theorem loads_of_read {filename text : String} {d : Document}
    (h : Document.read filename text = .ok d) : ∃ items found, d.Loads items found := by
  simp only [Document.read, bind, Except.bind] at h
  split at h
  · cases h
  · next root readRoot =>
    split at h
    · cases h
    · next design readDesign =>
      cases h
      obtain ⟨_, tag⟩ := readRoot_eq_ok_iff.mp readRoot
      cases root with
      | atom s => cases tag
      | quoted s => cases tag
      | list items =>
        obtain ⟨found, read, gathers⟩ := Design.gathers_of_ofTree readDesign
        exact ⟨items, found, rfl, tag, read, gathers⟩

/-- A printed tree is read as a document with the same design. -/
theorem read_toPrettyText (filename : String) {items : List SExpr} {found : List Item}
    (tag : (SExpr.list items).tag? = some "kicad_pcb")
    (read : itemsFrom (netEntries items) 0 items = .ok found) :
    ∃ e, Document.read filename (SExpr.list items).toPrettyText = .ok e ∧ e.design.Gathers found := by
  obtain ⟨design, holds, gathers⟩ := Design.ofTree_of_itemsFrom filename read
  rw [← Design.ofTree_normal] at holds
  have root : Design.readRoot (SExpr.list items).toPrettyText = .ok (SExpr.normal (.list items)) := by
    rw [readRoot_eq_ok_iff, SExpr.tag?_normal]
    exact ⟨SExpr.read_toPrettyText _, tag⟩
  refine ⟨⟨SExpr.normal (.list items), design, none⟩, ?_, gathers⟩
  simp only [Document.read, bind, Except.bind, root, holds]
  rfl

namespace Loads

variable {d : Document} {items : List SExpr} {found : List Item}

theorem ascending (h : d.Loads items found) :
    (found.filterMap Item.placed?).Pairwise fun a b => a.2 < b.2 :=
  (Design.placed_ascending h.read).1

theorem sorted_eq (h : d.Loads items found) :
    d.design.sortedTracks = (found.filterMap Item.placed?).mergeSort Design.precedes :=
  Design.sorted_of_perm h.gathers.tracks_perm h.ascending

theorem sorted_perm (h : d.Loads items found) :
    d.design.sortedTracks.Perm (found.filterMap Item.placed?) := by
  rw [h.sorted_eq]
  exact List.mergeSort_perm _ _

theorem sources_nodup (h : d.Loads items found) : (d.toBoard.sources.map (·.2)).Nodup := by
  have numbers : (found.filterMap Item.placed?).Pairwise fun a b => a.2 ≠ b.2 :=
    h.ascending.imp fun less => Nat.ne_of_lt less
  rw [Document.toBoard, Design.sources_numbers]
  apply (h.sorted_perm.map _).nodup_iff.mpr
  rw [List.Nodup, List.pairwise_map]
  exact numbers

theorem mem_found {nets : List NetEntry} {node : Nat} {items : List SExpr} {found : List Item}
    (h : itemsFrom nets node items = .ok found) {item : Item} (mem : item ∈ found) :
    ∃ i e, items[i]? = some e ∧ itemIfAny? nets (node + i) e = some (some item) := by
  induction items generalizing node found with
  | nil =>
    cases h
    cases mem
  | cons e rest ih =>
    obtain ⟨here, more, read, others, rfl⟩ := Design.itemsFrom_cons.mp h
    rcases List.mem_append.mp mem with first | later
    · rw [Option.mem_toList.mp first] at read
      exact ⟨0, e, rfl, read⟩
    · obtain ⟨i, f, there, readThere⟩ := ih others later
      refine ⟨i + 1, f, there, ?_⟩
      rwa [Nat.add_assoc, Nat.add_comm 1 i] at readThere

theorem source (h : d.Loads items found) {id : Nat} {t : Track}
    (live : d.toBoard.board.track? id = some t) :
    ∃ nets n e item, Design.Source nets n e item t := by
  rw [Document.toBoard, Design.track?_toBoard, Option.map_eq_some_iff] at live
  obtain ⟨⟨t', k⟩, there, rfl⟩ := live
  have mem := h.sorted_perm.subset (List.mem_of_getElem? there)
  obtain ⟨item, inside, placed⟩ := List.mem_filterMap.mp mem
  obtain ⟨i, e, _, read⟩ := mem_found h.read inside
  exact ⟨_, _, e, item, Design.source_of_placed read placed⟩

theorem straight (h : d.Loads items found) : d.toBoard.board.StraightVias := by
  intro id t live
  obtain ⟨nets, n, e, item, source⟩ := h.source live
  exact source.straight

theorem ends_fit (h : d.Loads items found) : d.toBoard.board.EndsIn Point.Fits := by
  intro id t live p there
  obtain ⟨nets, n, e, item, source⟩ := h.source live
  exact source.ends_fit there

/-- The first item is the tag of the file and no source of a track. -/
theorem head (h : d.Loads items found) :
    ∃ e rest, items = e :: rest ∧ e.text? = some "kicad_pcb" ∧ e.tag? = none ∧
      ∀ t, (t, 0) ∉ found.filterMap Item.placed? := by
  have tag := h.tag
  have read := h.read
  cases items with
  | nil => cases tag
  | cons e rest =>
    have text : e.text? = some "kicad_pcb" := tag
    have untagged : e.tag? = none := by
      cases e with
      | atom s => rfl
      | quoted s => rfl
      | list inside => cases text
    obtain ⟨item, more, here, others, rfl⟩ := Design.itemsFrom_cons.mp read
    have nothing : item = none := by
      rw [itemIfAny?, Design.item?, untagged, Option.some.injEq] at here
      exact here.symm
    refine ⟨e, rest, rfl, text, untagged, fun t mem => ?_⟩
    rw [nothing, Option.toList_none, List.nil_append] at mem
    have range := (Design.placed_ascending others).2 (t, 0) mem
    omega

end Loads

/-! ## After the moves of a run -/

section Cleaned

variable {d : Document} {items : List SExpr} {found : List Item} {o : Options} {cs : List Change}
variable {c : Board} {sources : List (Nat × Nat)}

/-- The walk finds for every item with a track what the slot of the track holds now. -/
theorem fate_sorted (loads : d.Loads items found) (order : sources.Perm d.toBoard.sources)
    {id k : Nat} {t : Track} (there : d.design.sortedTracks[id]? = some (t, k)) :
    fate c sources k = some (c.track? id) := by
  apply fate_of_mem
  · exact (order.map _).nodup_iff.mpr loads.sources_nodup
  · exact order.symm.subset (Design.mem_sources.mpr ⟨t, there⟩)

theorem fate_idle (loads : d.Loads items found) (order : sources.Perm d.toBoard.sources) {k : Nat}
    (absent : ∀ t, (t, k) ∉ found.filterMap Item.placed?) : fate c sources k = none := by
  apply fate_eq_none
  intro mem
  have number := (order.map (·.2)).subset mem
  rw [Document.toBoard, Design.sources_numbers] at number
  obtain ⟨⟨t, k'⟩, there, rfl⟩ := List.mem_map.mp number
  exact absent t (loads.sorted_perm.subset there)

theorem followed_of_moves (loads : d.Loads items found)
    (order : sources.Perm d.toBoard.sources) (moves : Board.Moves o d.toBoard.board cs c) {t : Track}
    {k : Nat} (mem : (t, k) ∈ found.filterMap Item.placed?) : Followed c sources t k := by
  obtain ⟨id, there⟩ := List.mem_iff_getElem?.mp (loads.sorted_perm.symm.subset mem)
  refine ⟨c.track? id, fate_sorted loads order there, fun u live => ?_⟩
  obtain ⟨t', before, stretches⟩ := moves.survivor loads.straight live
  rw [Document.toBoard, Design.track?_toBoard, there, Option.map_some, Option.some.injEq] at before
  subst before
  have fits : c.EndsIn Point.Fits := Board.Stable.moves (Board.stable_endsIn _) moves loads.ends_fit
  exact ⟨stretches, fits id u live⟩

/-- Taken in the order of the board, the fates of the items are the slots of the board. -/
theorem map_fate_sorted (loads : d.Loads items found) (order : sources.Perm d.toBoard.sources)
    (moves : Board.Moves o d.toBoard.board cs c) :
    (d.design.sortedTracks.map fun entry => (fate c sources entry.2).join) = c.slots := by
  have length : c.slots.length = d.design.sortedTracks.length := by
    rw [moves.length_slots, Document.toBoard, Design.toBoard_slots, List.length_map]
  refine List.ext_getElem (by rw [List.length_map, length]) fun id h h' => ?_
  rw [List.length_map] at h
  have there : d.design.sortedTracks[id]? = some d.design.sortedTracks[id] :=
    List.getElem?_eq_getElem h
  have told : fate c sources d.design.sortedTracks[id].2 = some (c.track? id) :=
    fate_sorted loads order there
  rw [List.getElem_map, told, Option.join_some, Board.track?, List.getElem?_eq_getElem h',
    Option.join_some]

/-- The tracks found in the revised list, sorted again, are the live tracks of the board. -/
theorem sorted_revised (loads : d.Loads items found) (order : sources.Perm d.toBoard.sources)
    (moves : Board.Moves o d.toBoard.board cs c) {found' : List Item}
    (revises : Revises c sources found found')
    (ascending : (found'.filterMap Item.placed?).Pairwise fun a b => a.2 < b.2) :
    ((found'.filterMap Item.placed?).mergeSort Design.precedes).map (·.1) = c.tracks.map (·.2) := by
  let now (entry : Track × Nat) : Option (Track × Nat) :=
    (fate c sources entry.2).join.map (·, entry.2)
  have keeps : ∀ a ∈ found.filterMap Item.placed?, ∀ b, now a = some b →
      b.1.net = a.1.net ∧ b.2 = a.2 := by
    intro a mem b same
    obtain ⟨u, live, rfl⟩ := Option.map_eq_some_iff.mp same
    obtain ⟨track, told, follows⟩ := followed_of_moves loads order moves mem
    rw [told, Option.join_some] at live
    exact ⟨(follows u live).1.net, rfl⟩
  have forget (l : List (Track × Nat)) : (l.filterMap now).map (·.1) =
      l.filterMap fun entry => (fate c sources entry.2).join := by
    rw [List.map_filterMap]
    congr 1
    funext entry
    show ((fate c sources entry.2).join.map (·, entry.2)).map (·.1) = _
    cases (fate c sources entry.2).join <;> rfl
  have apart : ((found.filterMap Item.placed?).filterMap now).Pairwise fun a b => a.2 < b.2 := by
    apply (List.Pairwise.and_mem.mp loads.ascending).filterMap now
    rintro a b ⟨inA, inB, less⟩ a' sameA b' sameB
    rw [(keeps a inA a' sameA).2, (keeps b inB b' sameB).2]
    exact less
  have tracks : (found'.filterMap Item.placed?).map (·.1) =
      ((found.filterMap Item.placed?).filterMap now).map (·.1) := by
    rw [forget, revises.tracks]
  rw [Design.sorted_tracks_congr ascending apart tracks,
    Design.sorted_filterMap loads.ascending keeps, ← loads.sorted_eq, forget, Board.tracks,
    Board.map_numbered, ← map_fate_sorted loads order moves, List.filterMap_map]
  rfl

/-- The revised list is that of a board file again. The walk leaves the tag in front, and with it the
kind of the file and the place of the nets. -/
theorem revised_reads (loads : d.Loads items found) (order : sources.Perm d.toBoard.sources)
    (moves : Board.Moves o d.toBoard.board cs c) :
    (SExpr.list (reviseFrom c sources 0 items)).tag? = some "kicad_pcb" ∧
      ∃ found', itemsFrom (netEntries (reviseFrom c sources 0 items)) 0 (reviseFrom c sources 0 items)
        = .ok found' ∧ Revises c sources found found' := by
  obtain ⟨first, rest, rfl, text, untagged, free⟩ := loads.head
  have stays : fate c sources 0 = none := fate_idle loads order free
  have idle : ∀ k, 0 ≤ k → (∀ t, (t, k) ∉ found.filterMap Item.placed?) → fate c sources k = none :=
    fun k _ absent => fate_idle loads order absent
  obtain ⟨sameNets, found', readAgain, revises⟩ :=
    itemsFrom_reviseFrom loads.read idle (fun t k => followed_of_moves loads order moves) 0
  have front : reviseFrom c sources 0 (first :: rest) = first :: reviseFrom c sources 1 rest := by
    rw [reviseFrom, revise, stays]
    rfl
  rw [front] at sameNets readAgain ⊢
  have nets : netEntries (first :: reviseFrom c sources 1 rest) = netEntries (first :: rest) := by
    have notNet : SExpr.hasTag "net" first = false := by
      rw [SExpr.hasTag, untagged]
      rfl
    rw [List.filter_cons, List.filter_cons, notNet] at sameNets
    rw [netEntries, netEntries, List.drop_one, List.drop_one, List.tail_cons, List.tail_cons]
    exact congrArg _ sameNets
  rw [nets]
  exact ⟨text, found', readAgain, revises⟩

theorem sources_inside (loads : d.Loads items found) (order : sources.Perm d.toBoard.sources) :
    ∀ source ∈ sources, source.2 < items.length := by
  rintro ⟨id, k⟩ mem
  obtain ⟨t, there⟩ := Design.mem_sources.mp (order.subset mem)
  have placed := loads.sorted_perm.subset (List.mem_of_getElem? there)
  have range := (Design.placed_ascending loads.read).2 (t, k) placed
  omega

/-- A document in line with a board after any moves is printed to a text that gives the live tracks
of that board. -/
theorem apply_read_of_moves (loads : d.Loads items found)
    (order : sources.Perm d.toBoard.sources) (moves : Board.Moves o d.toBoard.board cs c)
    (filename : String) :
    ∃ d' applied e, d.apply ⟨c, sources⟩ = (d', .ok applied) ∧
      Document.read filename d'.toText = .ok e ∧
      e.toBoard.board.slots = c.tracks.map (fun entry => some entry.2) ∧
      e.toBoard.board.pads = c.pads ∧ e.toBoard.board.zones = c.zones := by
  obtain ⟨tag, found', readAgain, revises⟩ := revised_reads loads order moves
  obtain ⟨design, holds, _⟩ := Design.ofTree_of_itemsFrom d.design.filename readAgain
  have apart : (sources.map (·.2)).Nodup := (order.map _).nodup_iff.mpr loads.sources_nodup
  obtain ⟨d', applied, ran, root⟩ : ∃ d' applied, d.apply ⟨c, sources⟩ = (d', .ok applied) ∧
      d'.root = .list (reviseFrom c sources 0 items) :=
    apply_ok loads.root apart (sources_inside loads order) holds
  obtain ⟨e, readText, gathers⟩ := read_toPrettyText filename tag readAgain
  rw [← root] at readText
  obtain ⟨ascending, _⟩ := Design.placed_ascending readAgain
  obtain ⟨pads, zones⟩ := moves.pads_zones
  refine ⟨d', applied, e, ran, readText, ?_, ?_, ?_⟩
  · have sorted : e.design.sortedTracks.map (·.1) = c.tracks.map (·.2) := by
      rw [Design.sortedTracks, Design.sorted_of_perm gathers.tracks_perm ascending]
      exact sorted_revised loads order moves revises ascending
    have slots : e.design.sortedTracks.map (fun entry => some entry.1) =
        (e.design.sortedTracks.map (·.1)).map some := by
      rw [List.map_map]
      rfl
    rw [Document.toBoard, Design.toBoard_slots, slots, sorted, List.map_map]
    rfl
  · rw [Document.toBoard, Design.toBoard_pads, gathers.pads_eq, revises.pads, ← loads.gathers.pads_eq,
      pads, Document.toBoard, Design.toBoard_pads]
  · rw [Document.toBoard, Design.toBoard_zones, gathers.zones_eq, revises.zones,
      ← loads.gathers.zones_eq, zones, Document.toBoard, Design.toBoard_zones]

end Cleaned

/-- Every document that was read can be brought in line with its board after a cleaning, whatever is
switched on and in whatever order the sources come. The text of the document is then one that can be
read, and it gives the live tracks of the cleaned board in their order, with the pads and zones. -/
theorem apply_clean_read {filename text : String} {d : Document}
    (read : Document.read filename text = .ok d) (o : Options) {sources : List (Nat × Nat)}
    (order : sources.Perm d.toBoard.sources) (filename' : String) :
    ∃ d' applied e,
      d.apply ⟨(d.toBoard.board.clean o).board, sources⟩ = (d', .ok applied) ∧
      Document.read filename' d'.toText = .ok e ∧
      e.toBoard.board.slots =
        (d.toBoard.board.clean o).board.tracks.map (fun entry => some entry.2) ∧
      e.toBoard.board.pads = (d.toBoard.board.clean o).board.pads ∧
      e.toBoard.board.zones = (d.toBoard.board.clean o).board.zones := by
  obtain ⟨items, found, loads⟩ := loads_of_read read
  exact apply_read_of_moves loads order (Board.clean_moves _ o) filename'

/-- Two aligned segments of one net. -/
def pairText : String :=
  "(kicad_pcb
    (segment (start 0 0) (end 10 0) (width 0.2) (layer \"F.Cu\") (net 1) (uuid \"a\"))
    (segment (start 10 0) (end 20 0) (width 0.2) (layer \"F.Cu\") (net 1) (uuid \"b\")))"

/-- Two segments that a cleaning makes one, with the sources taken from the last to the first. -/
theorem apply_clean_read_pair :
    ∃ d d' applied e, Document.read "pair.kicad_pcb" pairText = .ok d ∧
      d.apply ⟨(d.toBoard.board.clean { deleteDangling := false }).board,
        d.toBoard.sources.reverse⟩ = (d', .ok applied) ∧
      Document.read "tidy.kicad_pcb" d'.toText = .ok e ∧
      e.toBoard.board.slots = (d.toBoard.board.clean { deleteDangling := false }).board.tracks.map
        fun entry => some entry.2 := by
  have readable : (Document.read "pair.kicad_pcb" pairText).toOption.isSome = true := by
    decide +kernel
  cases read : Document.read "pair.kicad_pcb" pairText with
  | error cause =>
    rw [read] at readable
    cases readable
  | ok d =>
    have order : d.toBoard.sources.reverse.Perm d.toBoard.sources := List.reverse_perm _
    obtain ⟨d', applied, e, ran, again, slots, _⟩ :=
      apply_clean_read read { deleteDangling := false } order "tidy.kicad_pcb"
    exact ⟨d, d', applied, e, rfl, ran, again, slots⟩

end Document
end CopperTidy
