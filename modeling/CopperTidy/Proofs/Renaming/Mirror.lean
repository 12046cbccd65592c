import CopperTidy.Proofs.Snapshot
import CopperTidy.Proofs.Moves
import Mathlib.Data.List.Basic
import Mathlib.Order.Monotone.Basic

/-! # Boards with other ids and uuids

Two boards can show the same tracks in the same order under other ids, since slots may be empty on
the one and not on the other, and with other uuids. Whatever a pass asks about a board then has
corresponding answers on both: ids are only compared with each other, and a uuid is not looked at.
-/

namespace CopperTidy
set_option autoImplicit false

/-- Another id and another uuid for each track. -/
structure Renaming where
  number : Nat → Nat
  name : Nat → String

namespace Renaming

def track (ρ : Renaming) (id : Nat) (t : Track) : Track := { t with uuid := ρ.name id }

def entry (ρ : Renaming) (e : Nat × Track) : Nat × Track := (ρ.number e.1, ρ.track e.1 e.2)

@[simp] theorem entry_fst (ρ : Renaming) (e : Nat × Track) : (ρ.entry e).1 = ρ.number e.1 := rfl

def change (ρ : Renaming) : Change → Change
  | .removed id t reason => .removed (ρ.number id) (ρ.track id t) reason
  | .modified id t t' => .modified (ρ.number id) (ρ.track id t) (ρ.track id t')

/-- The second board shows the tracks of the first one, renamed. -/
structure Mirrors (ρ : Renaming) (b c : Board) : Prop where
  grows : StrictMono ρ.number
  tracks : c.tracks = b.tracks.map ρ.entry
  pads : c.pads = b.pads
  zones : c.zones = b.zones

end Renaming

/-! ## Lists of tracks -/

namespace Board

variable {b : Board} {id : Nat}

theorem ids_pairwise {entries : List (Nat × Track)} (sub : entries.Sublist b.tracks) :
    (entries.map (·.1)).Pairwise (· < ·) :=
  b.ids_ascending.sublist (sub.map _)

theorem tracks_remove (b : Board) (id : Nat) :
    (b.remove id).tracks = b.tracks.filter fun entry => entry.1 != id := by
  refine tracks_eq_of (ids_pairwise List.filter_sublist) fun other t => ?_
  rw [List.mem_filter, mem_tracks, track?_remove, bne_iff_ne]
  by_cases e : other = id
  · simp [e]
  · simp [e]

theorem tracks_modify (b : Board) (id : Nat) (edit : Track → Track) :
    (b.modify id edit).tracks =
      b.tracks.map fun entry => if entry.1 = id then (entry.1, edit entry.2) else entry := by
  have same_id (entry : Nat × Track) :
      (if entry.1 = id then (entry.1, edit entry.2) else entry).1 = entry.1 := by
    split <;> rfl
  refine tracks_eq_of ?_ fun other t => ?_
  · rw [List.map_map]
    simp only [Function.comp_def, same_id]
    exact b.ids_ascending
  · rw [List.mem_map, track?_modify]
    constructor
    · rintro ⟨⟨n, u⟩, mem, e⟩
      rw [mem_tracks] at mem
      by_cases isId : n = id
      · simp only [isId, if_true, Prod.mk.injEq] at e
        obtain ⟨rfl, rfl⟩ := e
        rw [if_pos rfl, ← isId, mem]
        rfl
      · simp only [isId, if_false, Prod.mk.injEq] at e
        obtain ⟨rfl, rfl⟩ := e
        rw [if_neg isId, mem]
    · intro live
      by_cases isId : other = id
      · rw [if_pos isId] at live
        obtain ⟨u, there, rfl⟩ := Option.map_eq_some_iff.mp live
        exact ⟨(id, u), mem_tracks.mpr there, by simp [isId]⟩
      · rw [if_neg isId] at live
        exact ⟨(other, t), mem_tracks.mpr live, by simp [isId]⟩

theorem tracksAfter_eq (b : Board) (id : Nat) :
    b.tracksAfter id = b.tracks.filter fun entry => id < entry.1 := by
  refine eq_of_ascending (numbered_ascending _ _) (ids_pairwise List.filter_sublist) fun n t => ?_
  rw [mem_tracksAfter, List.mem_filter, mem_tracks, decide_eq_true_eq]
  exact and_comm

end Board

namespace Renaming.Mirrors

variable {ρ : Renaming} {b c : Board} {id : Nat} {t : Track} {side : Side}

/-! ## Looking at tracks -/

theorem track? (h : ρ.Mirrors b c) (id : Nat) :
    c.track? (ρ.number id) = (b.track? id).map (ρ.track id) := by
  refine Option.ext fun u => ?_
  rw [← Board.mem_tracks, h.tracks, List.mem_map, Option.map_eq_some_iff]
  constructor
  · rintro ⟨⟨n, t⟩, mem, e⟩
    obtain ⟨number, rfl⟩ := Prod.mk.inj e
    have same : n = id := h.grows.injective number
    subst same
    exact ⟨t, Board.mem_tracks.mp mem, rfl⟩
  · rintro ⟨t, there, rfl⟩
    exact ⟨(id, t), Board.mem_tracks.mpr there, rfl⟩

theorem track?_some (h : ρ.Mirrors b c) (there : b.track? id = some t) :
    c.track? (ρ.number id) = some (ρ.track id t) := by
  rw [h.track?, there]
  rfl

theorem track?_none (h : ρ.Mirrors b c) (gone : b.track? id = none) :
    c.track? (ρ.number id) = none := by
  rw [h.track?, gone]
  rfl

theorem any_track? (h : ρ.Mirrors b c) (id : Nat) {p q : Track → Bool}
    (same : ∀ t, q (ρ.track id t) = p t) :
    (c.track? (ρ.number id)).any q = (b.track? id).any p := by
  rw [h.track?]
  cases b.track? id with
  | none => rfl
  | some t => exact same t

theorem ids (h : ρ.Mirrors b c) : c.ids = b.ids.map ρ.number := by
  rw [Board.ids, h.tracks, Board.ids, List.map_map, List.map_map]
  rfl

theorem trackCount (h : ρ.Mirrors b c) : c.trackCount = b.trackCount := by
  rw [Board.trackCount, h.tracks, List.length_map, Board.trackCount]

theorem number_eq_iff (h : ρ.Mirrors b c) {m n : Nat} : ρ.number m = ρ.number n ↔ m = n :=
  h.grows.injective.eq_iff

theorem number_bne (h : ρ.Mirrors b c) (m n : Nat) : (ρ.number m != ρ.number n) = (m != n) := by
  rw [Bool.eq_iff_iff, bne_iff_ne, bne_iff_ne, ne_eq, h.number_eq_iff]

theorem contains_number (h : ρ.Mirrors b c) (listed : List Nat) (id : Nat) :
    (listed.map ρ.number).contains (ρ.number id) = listed.contains id := by
  rw [Bool.eq_iff_iff, List.contains_iff_mem, List.contains_iff_mem]
  exact List.mem_map_of_injective h.grows.injective

/-- Entries that are picked by a question to which renaming makes no difference. -/
theorem filter_map (entries : List (Nat × Track)) {p q : Nat × Track → Bool}
    (same : ∀ entry ∈ entries, q (ρ.entry entry) = p entry) :
    (entries.map ρ.entry).filter q = (entries.filter p).map ρ.entry := by
  rw [List.filter_map]
  exact congrArg _ (List.filter_congr same)

theorem fst_map (entries : List (Nat × Track)) :
    (entries.map ρ.entry).map (·.1) = (entries.map (·.1)).map ρ.number := by
  rw [List.map_map, List.map_map]
  rfl

/-- Ids of live tracks that answer a question. -/
theorem ids_filter (h : ρ.Mirrors b c) {p q : Nat × Track → Bool}
    (same : ∀ entry, q (ρ.entry entry) = p entry) :
    (c.tracks.filter q).map (·.1) = ((b.tracks.filter p).map (·.1)).map ρ.number := by
  rw [h.tracks, filter_map b.tracks fun entry _ => same entry, fst_map]

theorem tracksAfter (h : ρ.Mirrors b c) (id : Nat) :
    c.tracksAfter (ρ.number id) = (b.tracksAfter id).map ρ.entry := by
  rw [Board.tracksAfter_eq, Board.tracksAfter_eq, h.tracks]
  refine filter_map b.tracks fun entry _ => ?_
  exact decide_eq_decide.mpr h.grows.lt_iff_lt

/-! ## Pads and zones -/

theorem padsUnder (h : ρ.Mirrors b c) (id : Nat) (t : Track) (side : Side) :
    c.padsUnder (ρ.track id t) side = b.padsUnder t side := by
  rw [Board.padsUnder, Board.padsAt, Board.padsWhere, h.pads]
  cases side <;> rfl

theorem padsUnderEnds (h : ρ.Mirrors b c) (id : Nat) (t : Track) :
    c.padsUnderEnds (ρ.track id t) = b.padsUnderEnds t := by
  rw [Board.padsUnderEnds, h.padsUnder, h.padsUnder]
  rfl

theorem zoneUnder? (h : ρ.Mirrors b c) (id : Nat) (t : Track) (side : Side) :
    c.zoneUnder? (ρ.track id t) side = b.zoneUnder? t side := by
  rw [Board.zoneUnder?, Board.zoneAt?, h.zones]
  cases side <;> rfl

/-! ## Contacts -/

theorem onPad (h : ρ.Mirrors b c) (id : Nat) (side : Side) :
    ContactSource.onPad Scan.mk c (ρ.number id) side = ContactSource.onPad Scan.mk b id side :=
  h.any_track? id fun t => by rw [h.padsUnder]

theorem padsOf (h : ρ.Mirrors b c) (id : Nat) :
    ContactSource.padsOf Scan.mk c (ρ.number id) = ContactSource.padsOf Scan.mk b id := by
  show ((c.track? _).map c.padsUnderEnds).getD [] = ((b.track? id).map b.padsUnderEnds).getD []
  rw [h.track?]
  cases b.track? id with
  | none => rfl
  | some t => exact h.padsUnderEnds id t

theorem tracksOf (h : ρ.Mirrors b c) (id : Nat) :
    ContactSource.tracksOf Scan.mk c (ρ.number id) =
      (ContactSource.tracksOf Scan.mk b id).map ρ.number := by
  show ((c.track? _).map (c.tracksTouching _)).getD [] =
    (((b.track? id).map (b.tracksTouching id)).getD []).map ρ.number
  rw [h.track?]
  cases b.track? id with
  | none => rfl
  | some t =>
    refine h.ids_filter fun entry => ?_
    rw [entry_fst, h.number_bne]
    rfl

theorem itemsAt (h : ρ.Mirrors b c) (id : Nat) (t : Track) (p : Point) (n : Neighbors) :
    ContactSource.itemsAt Scan.mk c (ρ.number id) (ρ.track id t) p
        { n with exclude := n.exclude.map ρ.number } =
      (ContactSource.itemsAt Scan.mk b id t p n).map ρ.number := by
  refine h.ids_filter fun entry => ?_
  simp only [Neighbors.wants, entry_fst, h.number_bne, h.contains_number]
  rfl

theorem connectedAt (h : ρ.Mirrors b c) (id : Nat) (side : Side) (n : Neighbors) :
    ContactSource.connectedAt Scan.mk c (ρ.number id) side
        { n with exclude := n.exclude.map ρ.number } =
      (ContactSource.connectedAt Scan.mk b id side n).map ρ.number := by
  rw [ContactSource.connectedAt, ContactSource.connectedAt, h.track?]
  cases b.track? id with
  | none => rfl
  | some t =>
    have place : (ρ.track id t).point side = t.point side := by cases side <;> rfl
    simp only [Option.map_some, place]
    exact h.itemsAt id t _ n

/-! ## Changing tracks -/

theorem remove (h : ρ.Mirrors b c) (id : Nat) :
    ρ.Mirrors (b.remove id) (c.remove (ρ.number id)) := by
  refine ⟨h.grows, ?_, ?_, ?_⟩
  · rw [Board.tracks_remove, Board.tracks_remove, h.tracks]
    exact filter_map b.tracks fun entry _ => h.number_bne entry.1 id
  · rw [Board.remove_pads, Board.remove_pads, h.pads]
  · rw [Board.remove_zones, Board.remove_zones, h.zones]

theorem modify (h : ρ.Mirrors b c) (id : Nat) {edit edit' : Track → Track}
    (same : ∀ t, edit' (ρ.track id t) = ρ.track id (edit t)) :
    ρ.Mirrors (b.modify id edit) (c.modify (ρ.number id) edit') := by
  refine ⟨h.grows, ?_, ?_, ?_⟩
  · rw [Board.tracks_modify, Board.tracks_modify, h.tracks, List.map_map, List.map_map]
    refine List.map_congr_left fun (n, t) _ => ?_
    simp only [Function.comp_apply, entry, h.number_eq_iff]
    by_cases isId : n = id
    · subst isId
      simp only [if_true, same]
    · simp only [if_neg isId]
  · rw [Board.modify_pads, Board.modify_pads, h.pads]
  · rw [Board.modify_zones, Board.modify_zones, h.zones]

end Renaming.Mirrors
end CopperTidy
