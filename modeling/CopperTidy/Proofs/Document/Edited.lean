import CopperTidy.Proofs.Document.RoundTrip

/-! # What bringing a document in line changes

On an edited board tracks are gone and ends of tracks have moved. A document in line with it has
lost the items of the former, and in the items of traces each end that differs is replaced. All
other items stand as they were, in their order, and the counts are those of the changes. It matters
for this that every track has an item of its own, and that ends are read where they are written.
-/

namespace CopperTidy
set_option autoImplicit false

namespace Board

/-- The boards that come of `b` when tracks are removed and ends of tracks are moved. -/
inductive Edited (b : Board) : Board → Prop
  | refl : Edited b b
  | remove {c : Board} (before : Edited b c) (id : Nat) : Edited b (c.remove id)
  | moveEnds {c : Board} (before : Edited b c) (id : Nat) (start stop : Point) :
      Edited b (c.modify id fun t => { t with start, stop })

variable {b c : Board}

/-- A track of an edited board is the one that was there, but for its ends. -/
theorem Edited.origin (h : b.Edited c) {id : Nat} {t : Track} (live : c.track? id = some t) :
    ∃ s, b.track? id = some s ∧ t = { s with start := t.start, stop := t.stop } := by
  induction h generalizing t with
  | refl => exact ⟨t, live, rfl⟩
  | remove _ other ih => exact ih (track?_of_remove live).2
  | moveEnds _ other start stop ih =>
    rw [track?_modify] at live
    split at live
    · next same =>
      subst same
      obtain ⟨u, there, rfl⟩ := Option.map_eq_some_iff.mp live
      obtain ⟨s, before, shape⟩ := ih there
      exact ⟨s, before, by rw [shape]⟩
    · exact ih live

theorem Edited.isTrace (h : b.Edited c) {id : Nat} {s t : Track} (before : b.track? id = some s)
    (live : c.track? id = some t) : t.isTrace = s.isTrace := by
  obtain ⟨s', before', shape⟩ := h.origin live
  rw [before, Option.some.injEq] at before'
  rw [shape, before']
  rfl

theorem ids_of_slots {ts : List Track} (h : b.slots = ts.map some) :
    b.ids = List.range ts.length := by
  have every (first : Nat) (ts : List Track) :
      (numbered first (ts.map some)).map (·.1) = List.range' first ts.length := by
    induction ts generalizing first with
    | nil => rfl
    | cons t ts ih =>
      rw [List.map_cons, numbered, List.map_cons, ih, List.length_cons, List.range'_succ]
  rw [ids, tracks, h, every, List.range_eq_range']

end Board

namespace Document

open Design (Item NetEntry item? itemIfAny? netEntries position)

/-! ## The second reading of the rewritten items -/

/-- The item with its first item tagged `key` replaced by the point `p`. -/
def putPoint (key : String) (p : Point) (e : SExpr) : SExpr :=
  .list (e.items.set (e.items.findIdx (SExpr.hasTag key)) (.node key [mmText p.x, mmText p.y]))

/-- The item of a trace, with each end replaced that it does not give as the trace has it. -/
def withEnds (t : Track) (e : SExpr) : SExpr :=
  let started := if readPoint? e "start" = some t.start then e else putPoint "start" t.start e
  if readPoint? e "end" = some t.stop then started else putPoint "end" t.stop started

/-- Does the item give an end that the trace does not have? -/
def endsDiffer (t : Track) (e : SExpr) : Bool :=
  readPoint? e "start" != some t.start || readPoint? e "end" != some t.stop

/-- What is left of the root list: items of tracks that are gone are left out, items of traces have
the ends of the traces. -/
def itemsInLine (c : Board) (sources : List (Nat × Nat)) (items : List SExpr) : List SExpr :=
  items.zipIdx.filterMap fun (e, k) =>
    match fate c sources k with
    | none => some e
    | some none => none
    | some (some t) => some (if t.isTrace then withEnds t e else e)

/-- Is item number `k` that of a trace that has another end than the item gives? -/
def rewrites (c : Board) (sources : List (Nat × Nat)) (items : List SExpr) (k : Nat) : Bool :=
  match fate c sources k, items[k]? with
  | some (some t), some e => t.isTrace && endsDiffer t e
  | _, _ => false

/-- How many items have an end replaced. -/
def rewrittenCount (c : Board) (sources : List (Nat × Nat)) (items : List SExpr) : Nat :=
  (List.range items.length).countP (rewrites c sources items)

/-- How many tracks of `b` are gone. -/
def removedCount (b c : Board) : Nat := b.ids.countP fun id => (c.track? id).isNone

section Ends

variable {e old : SExpr} {key : String} {p : Point} {t : Track}

theorem moveEnd?_eq (found : e.child? key = some old) (p : Point) :
    moveEnd? e key p = if readPoint? e key = some p then none else some (putPoint key p e) := by
  rw [moveEnd?, SExpr.setChild?_eq_set found, putPoint]

theorem child?_putPoint (found : e.child? key = some old) {other : String} (ne : other ≠ key) :
    (putPoint key p e).child? other = e.child? other := by
  have tagged := SExpr.hasTag_node key [mmText p.x, mmText p.y]
  rw [putPoint, SExpr.child?_setChild? tagged (SExpr.setChild?_eq_set found), if_neg ne]

theorem readPoint?_congr {e' : SExpr} (same : e'.child? key = e.child? key) :
    readPoint? e' key = readPoint? e key := by
  rw [readPoint?, readPoint?, Design.float?_congr same, Design.float?_congr same]

/-- The start is set before the end is looked at, and that leaves the end as it was. -/
theorem moveEnds?_eq {start stop : SExpr} (atStart : e.child? "start" = some start)
    (atEnd : e.child? "end" = some stop) (t : Track) :
    moveEnds? e t = if endsDiffer t e then some (withEnds t e) else none := by
  rw [moveEnds?, moveEnd?_eq atStart]
  by_cases first : readPoint? e "start" = some t.start
  · rw [if_pos first, moveEnd?_eq atEnd]
    by_cases second : readPoint? e "end" = some t.stop
    · simp [endsDiffer, first, second]
    · simp [endsDiffer, withEnds, first, second]
  · have stays : (putPoint "start" t.start e).child? "end" = e.child? "end" :=
      child?_putPoint atStart (by decide)
    have found := stays.trans atEnd
    rw [if_neg first]
    simp only [moveEnd?_eq found, readPoint?_congr stays]
    by_cases second : readPoint? e "end" = some t.stop
    · simp [endsDiffer, withEnds, first, second]
    · simp [endsDiffer, withEnds, first, second]

theorem settle_some {start stop : SExpr} (atStart : e.child? "start" = some start)
    (atEnd : e.child? "end" = some stop) (trace : t.isTrace = true) :
    settle (some t) e = some (withEnds t e) := by
  rw [settle_trace trace, moveEnds?_eq atStart atEnd]
  by_cases differ : endsDiffer t e = true
  · rw [if_pos differ, Option.getD_some]
  · rw [if_neg differ, Option.getD_none]
    simp only [endsDiffer, Bool.or_eq_true, bne_iff_ne, not_or, Decidable.not_not] at differ
    rw [withEnds, if_pos differ.1, if_pos differ.2]

end Ends

/-! ## Where the tracks come from -/

variable {d : Document} {items : List SExpr} {found : List Item} {c : Board}

namespace Loads

/-- A source points at the item that its track was read from. -/
theorem read_from (h : d.Loads items found) {id k : Nat} (mem : (id, k) ∈ d.toBoard.sources) :
    ∃ e item t, items[k]? = some e ∧ itemIfAny? (netEntries items) k e = some (some item) ∧
      item.placed? = some (t, k) ∧ d.toBoard.board.track? id = some t := by
  obtain ⟨t, there⟩ := Design.mem_sources.mp mem
  have placed := h.sorted_perm.subset (List.mem_of_getElem? there)
  obtain ⟨item, inside, gives⟩ := List.mem_filterMap.mp placed
  obtain ⟨i, e, here, read⟩ := mem_found h.read inside
  rw [Nat.zero_add] at read
  obtain rfl : k = i := Design.node_of_itemIfAny? read gives
  refine ⟨e, item, t, here, read, gives, ?_⟩
  rw [Document.toBoard, Design.track?_toBoard, there, Option.map_some]

/-- The item of a trace gives both its ends. -/
theorem ends (h : d.Loads items found) {id k : Nat} (mem : (id, k) ∈ d.toBoard.sources)
    {t : Track} (there : d.toBoard.board.track? id = some t) (trace : t.isTrace = true) {e : SExpr}
    (here : items[k]? = some e) :
    ∃ start stop, position e "start" = .ok start ∧ position e "end" = .ok stop ∧
      start.toPoint = t.start ∧ stop.toPoint = t.stop := by
  obtain ⟨e', item, t', here', read, placed, there'⟩ := h.read_from mem
  rw [here, Option.some.injEq] at here'
  rw [there, Option.some.injEq] at there'
  subst here' there'
  cases Design.source_of_placed read placed with
  | @segment s _ _ readSegment track =>
    obtain ⟨atStart, atEnd⟩ := Design.ends_of_segment readSegment
    obtain ⟨layer, _, rfl⟩ := Option.map_eq_some_iff.mp track
    exact ⟨s.start, s.stop, atStart, atEnd, rfl, rfl⟩
  | arc _ _ track =>
    obtain ⟨layer, _, rfl⟩ := Option.map_eq_some_iff.mp track
    cases trace
  | via => cases trace

theorem sources_ids (d : Document) : d.toBoard.sources.map (·.1) = d.toBoard.board.ids := by
  have slots : d.toBoard.board.slots = (d.design.sortedTracks.map (·.1)).map some := by
    rw [Document.toBoard, Design.toBoard_slots, List.map_map]
    rfl
  rw [Board.ids_of_slots slots, List.length_map]
  show (d.design.sortedTracks.zipIdx.map fun entry => (entry.2, entry.1.2)).map (·.1) = _
  rw [List.map_map]
  show d.design.sortedTracks.zipIdx.map Prod.snd = _
  rw [List.zipIdx_map_snd, List.range_eq_range']

end Loads

/-! ## Tree and counts -/

section InLine

variable {sources : List (Nat × Nat)}

theorem settle_of_fate (loads : d.Loads items found) (edited : d.toBoard.board.Edited c) {e : SExpr}
    {k : Nat} {t : Track} (here : items[k]? = some e)
    (now : fate c d.toBoard.sources k = some (some t)) :
    settle (some t) e = some (if t.isTrace then withEnds t e else e) ∧
      (t.isTrace && (moveEnds? e t).isSome) = (t.isTrace && endsDiffer t e) := by
  by_cases trace : t.isTrace = true
  · obtain ⟨id, mem, live⟩ := mem_of_fate now
    obtain ⟨s, before, _⟩ := edited.origin live
    have trace' : s.isTrace = true := (edited.isTrace before live).symm.trans trace
    obtain ⟨start, stop, readStart, readEnd, _⟩ := loads.ends mem before trace' here
    obtain ⟨old, atStart⟩ := child?_of_position readStart
    obtain ⟨old', atEnd⟩ := child?_of_position readEnd
    refine ⟨by rw [settle_some atStart atEnd trace, if_pos trace], ?_⟩
    rw [moveEnds?_eq atStart atEnd]
    cases endsDiffer t e <;> rfl
  · rw [Bool.not_eq_true] at trace
    rw [settle_not_trace trace, trace]
    exact ⟨rfl, rfl⟩

theorem reviseFrom_eq_itemsInLine (loads : d.Loads items found)
    (edited : d.toBoard.board.Edited c) (order : sources.Perm d.toBoard.sources) :
    reviseFrom c sources 0 items = itemsInLine c d.toBoard.sources items := by
  have apart : (sources.map (·.2)).Nodup := (order.map _).nodup_iff.mpr loads.sources_nodup
  rw [reviseFrom_eq_filterMap, itemsInLine]
  refine List.filterMap_congr ?_
  rintro ⟨e, k⟩ mem
  have here : items[k]? = some e := List.mem_zipIdx_iff_getElem?.mp mem
  dsimp only
  rw [revise, fate_perm order apart]
  cases now : fate c d.toBoard.sources k with
  | none => rfl
  | some track =>
    cases track with
    | none => rfl
    | some t => exact (settle_of_fate loads edited here now).1

theorem countP_removed (order : sources.Perm d.toBoard.sources) :
    sources.countP (fun source => (c.track? source.1).isNone) =
      removedCount d.toBoard.board c := by
  rw [order.countP_eq, removedCount, ← Loads.sources_ids d, List.countP_map]
  rfl

/-- Counting over the numbers of a list or over all numbers is the same if only numbers of the list
count. -/
theorem countP_range {l : List Nat} {n : Nat} {p : Nat → Bool} (apart : l.Nodup)
    (inside : ∀ k ∈ l, k < n) (only : ∀ k, p k = true → k ∈ l) :
    l.countP p = (List.range n).countP p := by
  have same : (l.filter p).Perm ((List.range n).filter p) := by
    refine (List.perm_ext_iff_of_nodup (apart.filter p) (List.nodup_range.filter p)).mpr fun k => ?_
    rw [List.mem_filter, List.mem_filter, List.mem_range]
    exact ⟨fun h => ⟨inside k h.1, h.2⟩, fun h => ⟨only k h.2, h.2⟩⟩
  rw [List.countP_eq_length_filter, List.countP_eq_length_filter, same.length_eq]

theorem countP_rewritten (loads : d.Loads items found) (edited : d.toBoard.board.Edited c)
    (order : sources.Perm d.toBoard.sources) :
    sources.countP (stirs c items) = rewrittenCount c d.toBoard.sources items := by
  have each : ∀ source ∈ d.toBoard.sources,
      stirs c items source = rewrites c d.toBoard.sources items source.2 := by
    rintro ⟨id, k⟩ mem
    obtain ⟨e, _, _, here, _⟩ := loads.read_from mem
    have now : fate c d.toBoard.sources k = some (c.track? id) :=
      fate_of_mem loads.sources_nodup mem
    cases live : c.track? id with
    | none => simp [stirs, rewrites, live, now]
    | some t =>
      rw [live] at now
      simp only [stirs, rewrites, live, now, here]
      exact (settle_of_fate loads edited here now).2
  have only (k : Nat) (counts : rewrites c d.toBoard.sources items k = true) :
      k ∈ d.toBoard.sources.map (·.2) := by
    cases now : fate c d.toBoard.sources k with
    | none => simp [rewrites, now] at counts
    | some track =>
      obtain ⟨id, mem, _⟩ := mem_of_fate now
      exact List.mem_map.mpr ⟨(id, k), mem, rfl⟩
  have inside : ∀ k ∈ d.toBoard.sources.map (·.2), k < items.length := by
    intro k mem
    obtain ⟨source, own, rfl⟩ := List.mem_map.mp mem
    exact sources_inside loads (.refl _) source own
  calc sources.countP (stirs c items)
    _ = d.toBoard.sources.countP (stirs c items) := order.countP_eq _
    _ = d.toBoard.sources.countP (rewrites c d.toBoard.sources items ∘ Prod.snd) :=
      List.countP_congr fun source mem => by rw [each source mem, Function.comp_apply]
    _ = (d.toBoard.sources.map Prod.snd).countP (rewrites c d.toBoard.sources items) :=
      List.countP_map.symm
    _ = rewrittenCount c d.toBoard.sources items := countP_range loads.sources_nodup inside only

/-- The board of the document itself asks for no change. -/
theorem idle_of_loads (loads : d.Loads items found) {source : Nat × Nat}
    (mem : source ∈ d.toBoard.sources) :
    (d.toBoard.board.track? source.1).isNone = false ∧
      stirs d.toBoard.board items source = false := by
  obtain ⟨id, k⟩ := source
  obtain ⟨e, _, t, here, _, _, there⟩ := loads.read_from mem
  refine ⟨by rw [there]; rfl, ?_⟩
  simp only [stirs, there, here, Bool.and_eq_false_iff]
  refine Decidable.or_iff_not_imp_left.mpr fun trace => ?_
  rw [Bool.not_eq_false] at trace
  obtain ⟨start, stop, readStart, readEnd, sameStart, sameEnd⟩ := loads.ends mem there trace here
  obtain ⟨old, atStart⟩ := child?_of_position readStart
  obtain ⟨old', atEnd⟩ := child?_of_position readEnd
  have same : endsDiffer t e = false := by
    rw [endsDiffer, readPoint?_of_position readStart, readPoint?_of_position readEnd, sameStart,
      sameEnd, bne_self_eq_false, bne_self_eq_false]
    rfl
  rw [moveEnds?_eq atStart atEnd, same]
  rfl

end InLine

theorem own_of_read {filename text : String} (h : Document.read filename text = .ok d) :
    d.design.filename = filename ∧ Design.ofTree d.design.filename d.root = .ok d.design := by
  simp only [Document.read, bind, Except.bind] at h
  split at h
  · cases h
  split at h
  · cases h
  · next root _ _ design holds =>
    cases h
    have name : design.filename = filename := by
      cases root with
      | list items =>
        simp only [Design.ofTree, bind, Except.bind] at holds
        split at holds
        · cases holds
        · cases holds
          rfl
      | atom s => cases holds
      | quoted s => cases holds
    exact ⟨name, by rw [name]; exact holds⟩

/-- A document that was read is brought in line with an edited board whenever the new tree holds a
design, whatever the order of the sources. The items of removed tracks go, the items of traces get
the ends that differ, nothing else changes, and the changes are counted. A board that was not
edited changes nothing. -/
theorem apply_edited {filename text : String} {sources : List (Nat × Nat)}
    (read : Document.read filename text = .ok d) (edited : d.toBoard.board.Edited c)
    (order : sources.Perm d.toBoard.sources) :
    ∃ items, d.root = .list items ∧
      (d.toBoard.sources.map (·.1) = d.toBoard.board.ids ∧
        (d.toBoard.sources.map (·.2)).Nodup ∧
        ∀ id k, (id, k) ∈ d.toBoard.sources →
          ∃ e item t, items[k]? = some e ∧ item? (netEntries items) k e = .ok (some item) ∧
            item.placed? = some (t, k) ∧ d.toBoard.board.track? id = some t) ∧
      (∀ design,
        Design.ofTree filename (.list (itemsInLine c d.toBoard.sources items)) = .ok design →
        d.apply ⟨c, sources⟩ =
          ({ d with root := .list (itemsInLine c d.toBoard.sources items), design },
            .ok ⟨removedCount d.toBoard.board c, rewrittenCount c d.toBoard.sources items⟩)) ∧
      d.apply ⟨d.toBoard.board, sources⟩ = (d, .ok {}) := by
  obtain ⟨items, found, loads⟩ := loads_of_read read
  obtain ⟨name, own⟩ := own_of_read read
  have apart : (sources.map (·.2)).Nodup := (order.map _).nodup_iff.mpr loads.sources_nodup
  have inside := sources_inside loads order
  refine ⟨items, loads.root, ⟨Loads.sources_ids d, loads.sources_nodup, ?_⟩, ?_, ?_⟩
  · intro id k mem
    obtain ⟨e, item, t, here, readHere, placed, there⟩ := loads.read_from mem
    exact ⟨e, item, t, here, Design.itemIfAny?_eq_some_some.mp readHere, placed, there⟩
  · intro design holds
    rw [← reviseFrom_eq_itemsInLine loads edited order, ← name] at holds
    rw [apply_eq loads.root own apart inside holds, reviseFrom_eq_itemsInLine loads edited order,
      countP_removed order, countP_rewritten loads edited order]
  · have idle : ∀ source ∈ sources, (d.toBoard.board.track? source.1).isNone = false ∧
        stirs d.toBoard.board items source = false :=
      fun source mem => idle_of_loads loads (order.subset mem)
    have kept : reviseFrom d.toBoard.board sources 0 items = items := reviseFrom_idle apart idle
    have gone : sources.countP (fun source => (d.toBoard.board.track? source.1).isNone) = 0 :=
      List.countP_eq_zero.mpr fun source mem => Bool.eq_false_iff.mp (idle source mem).1
    have moved : sources.countP (stirs d.toBoard.board items) = 0 :=
      List.countP_eq_zero.mpr fun source mem => Bool.eq_false_iff.mp (idle source mem).2
    have holds : Design.ofTree d.design.filename
        (.list (reviseFrom d.toBoard.board sources 0 items)) = .ok d.design := by
      rw [kept, ← loads.root]
      exact own
    rw [apply_eq loads.root own apart inside holds, kept, gone, moved, ← loads.root]

/-- A segment that gives its start twice, between items that are no tracks. -/
def twiceText : String :=
  "(kicad_pcb (net 1 \"A\") (gr_line (start 0 0) (end 1 1))
    (segment (start 0 0) (start 5 5) (end 10 0) (width 0.2) (layer \"F.Cu\") (net 1)))"

/-- The first start counts and is the one replaced. -/
theorem apply_edited_twice :
    ∃ d d', Document.read "twice.kicad_pcb" twiceText = .ok d ∧
      d.apply ⟨d.toBoard.board.modify 0 fun t =>
          { t with start := ⟨0, 2000000⟩, stop := ⟨20000000, 0⟩ }, d.toBoard.sources⟩ =
        (d', .ok ⟨0, 1⟩) ∧
      d'.root.toText = "(kicad_pcb (net 1 \"A\") (gr_line (start 0 0) (end 1 1)) " ++
        "(segment (start 0 2) (start 5 5) (end 20 0) (width 0.2) (layer \"F.Cu\") (net 1)))" := by
  have readable : (Document.read "twice.kicad_pcb" twiceText).toOption.isSome = true := by
    decide +kernel
  have holds : ∀ d ∈ (Document.read "twice.kicad_pcb" twiceText).toOption,
      let c := d.toBoard.board.modify 0 fun t =>
        { t with start := ⟨0, 2000000⟩, stop := ⟨20000000, 0⟩ }
      let items := itemsInLine c d.toBoard.sources d.root.items
      (Design.ofTree "twice.kicad_pcb" (.list items)).toOption.isSome = true ∧
        removedCount d.toBoard.board c = 0 ∧ rewrittenCount c d.toBoard.sources d.root.items = 1 ∧
        (SExpr.list items).toText = "(kicad_pcb (net 1 \"A\") (gr_line (start 0 0) (end 1 1)) " ++
          "(segment (start 0 2) (start 5 5) (end 20 0) (width 0.2) (layer \"F.Cu\") (net 1)))" := by
    decide +kernel
  cases read : Document.read "twice.kicad_pcb" twiceText with
  | error cause =>
    rw [read] at readable
    cases readable
  | ok d =>
    obtain ⟨holds, removed, rewritten, text⟩ := holds d (by rw [read]; rfl)
    obtain ⟨items, root, _, applies, _⟩ :=
      apply_edited read (.moveEnds .refl 0 ⟨0, 2000000⟩ ⟨20000000, 0⟩) (.refl _)
    rw [root, SExpr.items] at holds rewritten text
    obtain ⟨design, again⟩ : ∃ design, Design.ofTree "twice.kicad_pcb" (.list (itemsInLine
        (d.toBoard.board.modify 0 fun t => { t with start := ⟨0, 2000000⟩, stop := ⟨20000000, 0⟩ })
        d.toBoard.sources items)) = .ok design := by
      revert holds
      cases Design.ofTree "twice.kicad_pcb" _ with
      | error cause => exact fun holds => by cases holds
      | ok design => exact fun _ => ⟨design, rfl⟩
    have applied := applies design again
    rw [removed, rewritten] at applied
    exact ⟨d, _, rfl, applied, text⟩

end Document
end CopperTidy
