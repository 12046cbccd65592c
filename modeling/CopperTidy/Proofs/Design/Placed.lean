import CopperTidy.Design.Extract
import CopperTidy.Design.Loaded

/-! # From the items of a file to a board

Each item of a root list gives at most one track, and the board takes the tracks in the order of
their nets and, within a net, of their items. So the sequence of tracks on the board is settled by
the sequence of tracks in the file: item numbers only break ties.
-/

namespace CopperTidy.Design
set_option autoImplicit false

/-! ## What an item holds -/

/-- The track of an item and the number of the item. -/
def Item.placed? : Item → Option (Track × Nat)
  | .segment s => s.toTrack?.map (·, s.node)
  | .arc a => a.toTrack?.map (·, a.node)
  | .via v => some (v.toTrack, v.node)
  | .footprint _ | .zone _ => none

def Item.pads : Item → List Pad
  | .footprint f => f.pads.map (PadEntry.toPad f)
  | _ => []

def Item.zone? : Item → Option Zone
  | .zone z => z.toZone?
  | _ => none

/-- The design has taken up the items of a root list. -/
structure Gathers (d : Design) (found : List Item) : Prop where
  footprints : d.footprints = found.filterMap fun | .footprint f => some f | _ => none
  segments : d.segments = found.filterMap fun | .segment s => some s | _ => none
  arcs : d.arcs = found.filterMap fun | .arc a => some a | _ => none
  vias : d.vias = found.filterMap fun | .via v => some v | _ => none
  zones : d.zones = found.filterMap fun | .zone z => some z | _ => none

theorem gathers_of_ofTree {filename : String} {items : List SExpr} {d : Design}
    (h : ofTree filename (.list items) = .ok d) :
    ∃ found, itemsFrom (netEntries items) 0 items = .ok found ∧ d.Gathers found := by
  simp only [ofTree, bind, Except.bind] at h
  split at h
  · cases h
  · next found read =>
    refine ⟨found, read, ?_⟩
    cases h
    exact ⟨rfl, rfl, rfl, rfl, rfl⟩

theorem ofTree_of_itemsFrom (filename : String) {items : List SExpr} {found : List Item}
    (h : itemsFrom (netEntries items) 0 items = .ok found) :
    ∃ d, ofTree filename (.list items) = .ok d ∧ d.Gathers found := by
  simp only [ofTree, bind, Except.bind, h]
  exact ⟨_, rfl, rfl, rfl, rfl, rfl, rfl⟩

theorem Gathers.tracks_perm {d : Design} {found : List Item} (h : d.Gathers found) :
    d.tracks.Perm (found.filterMap Item.placed?) := by
  rw [tracks, h.segments, h.arcs, h.vias]
  clear h
  induction found with
  | nil => exact .nil
  | cons item found ih =>
    cases item with
    | footprint f => exact ih
    | zone z => exact ih
    | segment s =>
      simp only [List.filterMap_cons, Item.placed?]
      cases s.toTrack? with
      | none => exact ih
      | some t => exact ih.cons (t, s.node)
    | arc a =>
      simp only [List.filterMap_cons, Item.placed?]
      cases a.toTrack? with
      | none => exact ih
      | some t =>
        simp only [Option.map_some, List.append_assoc, List.cons_append] at ih ⊢
        exact List.perm_middle.trans (ih.cons (t, a.node))
    | via v =>
      simp only [List.filterMap_cons, Item.placed?, List.map_cons]
      exact List.perm_middle.trans (ih.cons (v.toTrack, v.node))

theorem Gathers.pads_eq {d : Design} {found : List Item} (h : d.Gathers found) :
    d.pads = found.flatMap Item.pads := by
  rw [pads, h.footprints]
  clear h
  induction found with
  | nil => rfl
  | cons item found ih =>
    cases item with
    | footprint f =>
      simp only [List.filterMap_cons, List.flatMap_cons, Item.pads]
      rw [ih]
    | segment s => exact ih
    | arc a => exact ih
    | via v => exact ih
    | zone z => exact ih

theorem Gathers.zones_eq {d : Design} {found : List Item} (h : d.Gathers found) :
    d.zones.filterMap ZoneEntry.toZone? = found.filterMap Item.zone? := by
  rw [h.zones, List.filterMap_filterMap]
  congr 1
  funext item
  cases item <;> rfl

/-! ## Numbers of items -/

/-- The item as it is read at another place. -/
def Item.moveTo (node : Nat) : Item → Item
  | .segment s => .segment { s with node }
  | .arc a => .arc { a with node }
  | .via v => .via { v with node }
  | .footprint f => .footprint f
  | .zone z => .zone z

section Places

variable (nets : List NetEntry) (m n : Nat) (e : SExpr)

theorem segment_at : segment nets n e = (segment nets m e).map fun s => { s with node := n } := by
  simp only [segment, bind, Except.bind]
  cases position e "start" with
  | error => rfl
  | ok start =>
    cases position e "end" with
    | error => rfl
    | ok stop =>
      cases required (float? e "width" 0) with
      | error => rfl
      | ok width => cases required (e.value? "layer" 0) <;> rfl

theorem arc_at : arc nets n e = (arc nets m e).map fun a => { a with node := n } := by
  simp only [arc, bind, Except.bind]
  cases position e "start" with
  | error => rfl
  | ok start =>
    cases position e "mid" with
    | error => rfl
    | ok mid =>
      cases position e "end" with
      | error => rfl
      | ok stop =>
        cases required (float? e "width" 0) with
        | error => rfl
        | ok width => cases required (e.value? "layer" 0) <;> rfl

theorem via_at : via nets n e = (via nets m e).map fun v => { v with node := n } := by
  simp only [via, bind, Except.bind]
  cases position e "at" with
  | error => rfl
  | ok place => cases required (float? e "size" 0) <;> rfl

/-- Where an item stands matters for its number only. -/
theorem item?_at : item? nets n e = (item? nets m e).map (Option.map (Item.moveTo n)) := by
  unfold item?
  split
  · cases footprint nets e <;> rfl
  · cases footprint nets e <;> rfl
  · rw [segment_at nets m n e]
    cases segment nets m e <;> rfl
  · rw [arc_at nets m n e]
    cases arc nets m e <;> rfl
  · rw [via_at nets m n e]
    cases via nets m e <;> rfl
  · rfl
  · rfl

end Places

theorem Item.placed?_moveTo (node : Nat) (item : Item) :
    (item.moveTo node).placed? = item.placed?.map fun entry => (entry.1, node) := by
  cases item with
  | segment s =>
    simp only [moveTo, placed?, Segment.toTrack?, Option.map_map]
    rfl
  | arc a =>
    simp only [moveTo, placed?, Arc.toTrack?, Option.map_map]
    rfl
  | via v => rfl
  | footprint f => rfl
  | zone z => rfl

theorem Item.pads_moveTo (node : Nat) (item : Item) : (item.moveTo node).pads = item.pads := by
  cases item <;> rfl

theorem Item.zone?_moveTo (node : Nat) (item : Item) : (item.moveTo node).zone? = item.zone? := by
  cases item <;> rfl

/-! ## Lists of items -/

/-- The item at a place that need not hold one; a place that makes the whole file unreadable has
no answer. -/
def itemIfAny? (nets : List NetEntry) (node : Nat) (e : SExpr) : Option (Option Item) :=
  match item? nets node e with
  | .ok found => some found
  | .error .malformed => some none
  | .error (.outOfRange _ _) => none

theorem itemsFrom_cons {nets : List NetEntry} {node : Nat} {e : SExpr} {rest : List SExpr}
    {found : List Item} :
    itemsFrom nets node (e :: rest) = .ok found ↔
      ∃ item more, itemIfAny? nets node e = some item ∧
        itemsFrom nets (node + 1) rest = .ok more ∧ found = item.toList ++ more := by
  rw [itemsFrom, itemIfAny?]
  split
  · next item read =>
    simp only [read, Option.some.injEq]
    cases itemsFrom nets (node + 1) rest with
    | error => simp [Except.map]
    | ok more => simp [Except.map, eq_comm]
  · next read => simp [read]
  · next read => simp [read]
  · next read => simp [read]

theorem itemIfAny?_at (nets : List NetEntry) (m n : Nat) (e : SExpr) :
    itemIfAny? nets n e = (itemIfAny? nets m e).map (Option.map (Item.moveTo n)) := by
  rw [itemIfAny?, itemIfAny?, item?_at nets m n e]
  cases item? nets m e with
  | ok found => rfl
  | error cause => cases cause <;> rfl

theorem node_of_itemIfAny? {nets : List NetEntry} {node n : Nat} {e : SExpr} {item : Item}
    {t : Track} (h : itemIfAny? nets node e = some (some item))
    (placed : item.placed? = some (t, n)) : n = node := by
  have again := itemIfAny?_at nets node node e
  rw [h] at again
  have same : item = item.moveTo node := Option.some.inj (Option.some.inj again)
  rw [same, Item.placed?_moveTo] at placed
  obtain ⟨entry, _, moved⟩ := Option.map_eq_some_iff.mp placed
  exact (congrArg Prod.snd moved).symm

/-- Tracks are found in the order of their items. -/
theorem placed_ascending {nets : List NetEntry} {node : Nat} {items : List SExpr} {found : List Item}
    (h : itemsFrom nets node items = .ok found) :
    (found.filterMap Item.placed?).Pairwise (fun a b => a.2 < b.2) ∧
      ∀ entry ∈ found.filterMap Item.placed?, node ≤ entry.2 ∧ entry.2 < node + items.length := by
  induction items generalizing node found with
  | nil =>
    cases h
    exact ⟨.nil, fun entry mem => by cases mem⟩
  | cons e rest ih =>
    obtain ⟨item, more, read, others, rfl⟩ := itemsFrom_cons.mp h
    obtain ⟨ascending, range⟩ := ih others
    have later : ∀ entry ∈ more.filterMap Item.placed?,
        node < entry.2 ∧ entry.2 < node + (rest.length + 1) := fun entry mem => by
      have inside := range entry mem
      omega
    rw [List.filterMap_append, List.length_cons]
    cases item with
    | none => exact ⟨ascending, fun entry mem => by have inside := later entry mem; omega⟩
    | some item =>
      rw [Option.toList_some, List.filterMap_cons, List.filterMap_nil]
      cases placed : item.placed? with
      | none => exact ⟨ascending, fun entry mem => by have inside := later entry mem; omega⟩
      | some entry =>
        have number : entry.2 = node := node_of_itemIfAny? read placed
        refine ⟨List.pairwise_cons.mpr ⟨fun other mem => ?_, ascending⟩, fun other mem => ?_⟩
        · have inside := later other mem
          omega
        · rcases List.mem_cons.mp mem with rfl | after
          · omega
          · have inside := later other after
            omega

/-! ## The order of tracks -/

theorem precedes_trans (a b c : Track × Nat) (first : precedes a b = true)
    (second : precedes b c = true) : precedes a c = true := by
  simp only [precedes, Bool.or_eq_true, Bool.and_eq_true, decide_eq_true_eq, beq_iff_eq] at first second ⊢
  grind

theorem precedes_total (a b : Track × Nat) : (precedes a b || precedes b a) = true := by
  simp only [precedes, Bool.or_eq_true, Bool.and_eq_true, decide_eq_true_eq, beq_iff_eq]
  grind

theorem precedes_antisymm {a b : Track × Nat} (first : precedes a b = true)
    (second : precedes b a = true) : a.2 = b.2 := by
  simp only [precedes, Bool.or_eq_true, Bool.and_eq_true, decide_eq_true_eq, beq_iff_eq] at first second
  grind

theorem eq_of_number {l : List (Track × Nat)} (apart : l.Pairwise fun a b => a.2 < b.2)
    {a b : Track × Nat} (ha : a ∈ l) (hb : b ∈ l) (same : a.2 = b.2) : a = b := by
  rw [List.pairwise_iff_getElem] at apart
  obtain ⟨i, hi, rfl⟩ := List.getElem_of_mem ha
  obtain ⟨j, hj, rfl⟩ := List.getElem_of_mem hb
  rcases Nat.lt_trichotomy i j with before | here | after
  · have less := apart i j hi hj before
    omega
  · simp only [here]
  · have less := apart j i hj hi after
    omega

/-- There is one order of the items, since no two have one number. -/
theorem eq_of_sorted {l m k : List (Track × Nat)} (apart : k.Pairwise fun a b => a.2 < b.2)
    (hl : l.Pairwise fun a b => precedes a b = true) (hm : m.Pairwise fun a b => precedes a b = true)
    (first : l.Perm k) (second : m.Perm k) : l = m := by
  refine List.Perm.eq_of_pairwise (fun a b inL inM ab ba => ?_) hl hm (first.trans second.symm)
  exact eq_of_number apart (first.subset inL) (second.subset inM) (precedes_antisymm ab ba)

theorem pairwise_sorted (l : List (Track × Nat)) :
    (l.mergeSort precedes).Pairwise fun a b => precedes a b = true :=
  List.pairwise_mergeSort precedes_trans precedes_total l

theorem sorted_of_perm {l m : List (Track × Nat)} (h : l.Perm m)
    (apart : m.Pairwise fun a b => a.2 < b.2) : l.mergeSort precedes = m.mergeSort precedes :=
  eq_of_sorted apart (pairwise_sorted l) (pairwise_sorted m) ((List.mergeSort_perm l _).trans h)
    (List.mergeSort_perm m _)

/-- Items may be dropped and tracks changed before or after sorting, if nets and numbers stay. -/
theorem sorted_filterMap {l : List (Track × Nat)} (apart : l.Pairwise fun a b => a.2 < b.2)
    {g : Track × Nat → Option (Track × Nat)}
    (keeps : ∀ a ∈ l, ∀ b, g a = some b → b.1.net = a.1.net ∧ b.2 = a.2) :
    (l.filterMap g).mergeSort precedes = (l.mergeSort precedes).filterMap g := by
  have left : (l.filterMap g).Pairwise fun a b => a.2 < b.2 := by
    apply (List.Pairwise.and_mem.mp apart).filterMap g
    rintro a b ⟨inA, inB, less⟩ c hc d hd
    rw [(keeps a inA c hc).2, (keeps b inB d hd).2]
    exact less
  have right : ((l.mergeSort precedes).filterMap g).Pairwise fun a b => precedes a b = true := by
    apply (List.Pairwise.and_mem.mp (pairwise_sorted l)).filterMap g
    rintro a b ⟨inA, inB, order⟩ c hc d hd
    obtain ⟨net, number⟩ := keeps a (List.mem_mergeSort.mp inA) c hc
    obtain ⟨net', number'⟩ := keeps b (List.mem_mergeSort.mp inB) d hd
    rw [precedes, net, net', number, number']
    exact order
  exact eq_of_sorted left (pairwise_sorted _) right (List.mergeSort_perm _ _)
    ((List.mergeSort_perm l _).filterMap g)

/-- Ascending numbers may be replaced by any others, here by the places in the list. -/
theorem sorted_tracks_eq {l : List (Track × Nat)} (apart : l.Pairwise fun a b => a.2 < b.2) :
    (l.mergeSort precedes).map (·.1) = ((l.map (·.1)).zipIdx.mergeSort precedes).map (·.1) := by
  obtain ⟨number, tells⟩ : ∃ number : Nat → Nat, ∀ i (h : i < l.length), l[i].2 = number i :=
    ⟨fun i => if h : i < l.length then l[i].2 else 0, fun i h => by simp only [dif_pos h]⟩
  have numbered : (l.map (·.1)).zipIdx.map (fun entry => (entry.1, number entry.2)) = l := by
    refine List.ext_getElem (by simp) fun i _ hi => ?_
    simp only [List.getElem_map, List.getElem_zipIdx, Nat.zero_add, ← tells i hi]
  have inside {entry : Track × Nat} (mem : entry ∈ (l.map (·.1)).zipIdx) : entry.2 < l.length := by
    obtain ⟨i, hi, rfl⟩ := List.getElem_of_mem mem
    simpa using hi
  have grows {i j : Nat} (hi : i < l.length) (hj : j < l.length) : i ≤ j ↔ number i ≤ number j := by
    rw [List.pairwise_iff_getElem] at apart
    rw [← tells i hi, ← tells j hj]
    rcases Nat.lt_trichotomy i j with before | rfl | after
    · have less := apart i j hi hj before
      omega
    · omega
    · have less := apart j i hj hi after
      omega
  have sorted := List.map_mergeSort (r := precedes) (s := precedes)
    (f := fun entry : Track × Nat => (entry.1, number entry.2)) (l := (l.map (·.1)).zipIdx)
    fun a ha b hb => by simp only [precedes, grows (inside ha) (inside hb)]
  rw [numbered] at sorted
  rw [← sorted, List.map_map]
  rfl

/-- The order of tracks depends on the order of their items only. -/
theorem sorted_tracks_congr {l m : List (Track × Nat)} (hl : l.Pairwise fun a b => a.2 < b.2)
    (hm : m.Pairwise fun a b => a.2 < b.2) (same : l.map (·.1) = m.map (·.1)) :
    (l.mergeSort precedes).map (·.1) = (m.mergeSort precedes).map (·.1) := by
  rw [sorted_tracks_eq hl, sorted_tracks_eq hm, same]

/-! ## The board -/

theorem slots_foldl_addTrack (ts : List Track) (b : Board) :
    (ts.foldl Board.addTrack b).slots = b.slots ++ ts.map some := by
  induction ts generalizing b with
  | nil => exact (List.append_nil _).symm
  | cons t ts ih =>
    rw [List.foldl_cons, ih, Board.addTrack, List.map_cons, List.append_assoc, List.singleton_append]

theorem foldl_addTrack_pads_zones (ts : List Track) (b : Board) :
    (ts.foldl Board.addTrack b).pads = b.pads ∧ (ts.foldl Board.addTrack b).zones = b.zones := by
  induction ts generalizing b with
  | nil => exact ⟨rfl, rfl⟩
  | cons t ts ih => exact ih (b.addTrack t)

theorem foldl_addPad (ps : List Pad) (b : Board) :
    (ps.foldl Board.addPad b).slots = b.slots ∧ (ps.foldl Board.addPad b).pads = b.pads ++ ps ∧
      (ps.foldl Board.addPad b).zones = b.zones := by
  induction ps generalizing b with
  | nil => exact ⟨rfl, (List.append_nil _).symm, rfl⟩
  | cons p ps ih =>
    obtain ⟨slots, pads, zones⟩ := ih (b.addPad p)
    refine ⟨slots, pads.trans ?_, zones⟩
    rw [Board.addPad, List.append_assoc, List.singleton_append]

theorem foldl_addZone (zs : List Zone) (b : Board) :
    (zs.foldl Board.addZone b).slots = b.slots ∧ (zs.foldl Board.addZone b).pads = b.pads ∧
      (zs.foldl Board.addZone b).zones = b.zones ++ zs := by
  induction zs generalizing b with
  | nil => exact ⟨rfl, rfl, (List.append_nil _).symm⟩
  | cons z zs ih =>
    obtain ⟨slots, pads, zones⟩ := ih (b.addZone z)
    refine ⟨slots, pads, zones.trans ?_⟩
    rw [Board.addZone, List.append_assoc, List.singleton_append]

theorem toBoard_slots (d : Design) :
    d.toBoard.board.slots = d.sortedTracks.map fun entry => some entry.1 := by
  simp only [toBoard, foldl_addZone, foldl_addPad, slots_foldl_addTrack, List.nil_append,
    List.map_map]
  rfl

theorem track?_toBoard (d : Design) (id : Nat) :
    d.toBoard.board.track? id = d.sortedTracks[id]?.map (·.1) := by
  rw [Board.track?, toBoard_slots, List.getElem?_map]
  cases d.sortedTracks[id]? <;> rfl

/-- A source names a track by its place and the item that it was read from. -/
theorem mem_sources {d : Design} {id k : Nat} :
    (id, k) ∈ d.toBoard.sources ↔ ∃ t, d.sortedTracks[id]? = some (t, k) := by
  show (id, k) ∈ d.sortedTracks.zipIdx.map (fun entry => (entry.2, entry.1.2)) ↔ _
  rw [List.mem_map]
  constructor
  · rintro ⟨⟨⟨t, number⟩, place⟩, mem, same⟩
    cases same
    exact ⟨t, List.mem_zipIdx_iff_getElem?.mp mem⟩
  · rintro ⟨t, there⟩
    exact ⟨((t, k), id), List.mem_zipIdx_iff_getElem?.mpr there, rfl⟩

theorem sources_numbers (d : Design) : d.toBoard.sources.map (·.2) = d.sortedTracks.map (·.2) := by
  show (d.sortedTracks.zipIdx.map fun entry => (entry.2, entry.1.2)).map (·.2) = _
  rw [List.map_map]
  have second : ((·.2) ∘ fun entry : (Track × Nat) × Nat => (entry.2, entry.1.2)) =
      (·.2) ∘ Prod.fst := by
    funext entry
    rfl
  rw [second, ← List.map_map, List.zipIdx_map_fst]

theorem toBoard_pads (d : Design) : d.toBoard.board.pads = d.pads := by
  simp only [toBoard, foldl_addZone, foldl_addPad, foldl_addTrack_pads_zones, List.nil_append]

theorem toBoard_zones (d : Design) :
    d.toBoard.board.zones = d.zones.filterMap ZoneEntry.toZone? := by
  simp only [toBoard, foldl_addZone, foldl_addPad, foldl_addTrack_pads_zones, List.nil_append]

end CopperTidy.Design
