import CopperTidy.Proofs.Copies
import CopperTidy.Proofs.Renaming.Mirror

/-! # One net of a board

A board without the tracks and zones of other nets shows what the whole board has of the one net,
under the same ids. Whatever is asked about a track of the net has the same answer on both, as long
as the question is about its net only: neighbours of the net, zones of the net, later copies, and
pads, which are all kept.
-/

namespace CopperTidy
set_option autoImplicit false

namespace Board

/-- The board with the tracks and the zones of one net, and with all pads. -/
def onNet (b : Board) (net : UInt32) : Board :=
  { b with
    slots := b.slots.map (·.filter (·.net == net))
    zones := b.zones.filter (·.net == net) }

/-- Of a board in the order of its nets, `c` shows one net. The ids in `own` belong to the net; an id
keeps its net when its track is gone. -/
structure Part (own : Nat → Bool) (net : UInt32) (b c : Board) : Prop where
  tracks : ∀ id, c.track? id = if own id then b.track? id else none
  nets : ∀ id t, b.track? id = some t → (own id = true ↔ t.net = net)
  pads : c.pads = b.pads
  zones : c.zones = b.zones.filter (·.net == net)
  sorted : b.NetSorted

theorem NetSorted.of_kept {b c : Board} (sorted : b.NetSorted)
    (kept : ∀ id t, c.track? id = some t → ∃ t', b.track? id = some t' ∧ t'.net = t.net) :
    c.NetSorted := by
  refine netSorted_iff.mpr fun m n t u first second lt => ?_
  obtain ⟨t', first, same⟩ := kept m t first
  obtain ⟨u', second, same'⟩ := kept n u second
  rw [← same, ← same']
  exact netSorted_iff.mp sorted m n t' u' first second lt

theorem track?_onNet (b : Board) (net : UInt32) (id : Nat) :
    (b.onNet net).track? id = (b.track? id).filter (·.net == net) := by
  simp only [track?, onNet, List.getElem?_map]
  cases b.slots[id]? <;> rfl

theorem onNet_part {b : Board} (sorted : b.NetSorted) (net : UInt32) :
    b.Part (fun id => (b.track? id).any (·.net == net)) net (b.onNet net) := by
  refine ⟨fun id => ?_, fun id t there => ?_, rfl, rfl, sorted⟩
  · rw [track?_onNet]
    cases b.track? id with
    | none => rfl
    | some t => simp [Option.filter]
  · simp [there]

namespace Part

variable {own : Nat → Bool} {net : UInt32} {b c : Board} {id : Nat} {t : Track} {side : Side}

theorem mine (h : b.Part own net c) (owned : own id = true) : c.track? id = b.track? id := by
  rw [h.tracks, if_pos owned]

theorem net_eq (h : b.Part own net c) (owned : own id = true) (there : b.track? id = some t) :
    t.net = net := (h.nets id t there).mp owned

theorem foreign (h : b.Part own net c) (other : own id = false) (there : b.track? id = some t) :
    t.net ≠ net := by
  intro same
  rw [(h.nets id t there).mpr same] at other
  cases other

/-- Two tracks of one net belong to it both, or neither does. -/
theorem own_eq (h : b.Part own net c) {id' : Nat} {t' : Track} (there : b.track? id = some t)
    (there' : b.track? id' = some t') (same : t'.net = t.net) : own id' = own id := by
  rw [Bool.eq_iff_iff, h.nets id t there, h.nets id' t' there', same]

/-! ## Changing tracks -/

/-- Both boards go on, and the tracks of the first one keep their nets. -/
theorem update {b' c' : Board} (h : b.Part own net c)
    (kept : ∀ id t, b'.track? id = some t → ∃ t', b.track? id = some t' ∧ t'.net = t.net)
    (tracks : ∀ id, c'.track? id = if own id then b'.track? id else none)
    (pads : c'.pads = b'.pads) (zones : c'.zones = b'.zones.filter (·.net == net)) :
    b'.Part own net c' := by
  refine ⟨tracks, fun id t there => ?_, pads, zones, h.sorted.of_kept kept⟩
  obtain ⟨t', was, same⟩ := kept id t there
  rw [h.nets id t' was, same]

theorem kept_remove (b : Board) (gone : Nat) (id : Nat) (t : Track)
    (live : (b.remove gone).track? id = some t) :
    ∃ t', b.track? id = some t' ∧ t'.net = t.net := by
  rw [track?_remove] at live
  split at live
  · cases live
  · exact ⟨t, live, rfl⟩

theorem kept_modify (b : Board) (edited : Nat) {edit : Track → Track}
    (same : ∀ t, (edit t).net = t.net) (id : Nat) (t : Track)
    (live : (b.modify edited edit).track? id = some t) :
    ∃ t', b.track? id = some t' ∧ t'.net = t.net := by
  rw [track?_modify] at live
  split at live
  · next e =>
    obtain ⟨t', there, rfl⟩ := Option.map_eq_some_iff.mp live
    exact ⟨t', e ▸ there, (same t').symm⟩
  · exact ⟨t, live, rfl⟩

theorem remove (h : b.Part own net c) (id : Nat) : (b.remove id).Part own net (c.remove id) := by
  refine h.update (kept_remove b id) (fun other => ?_) ?_ ?_
  · rw [track?_remove, track?_remove, h.tracks]
    by_cases e : other = id
    · simp [e]
    · simp [e]
  · rw [remove_pads, remove_pads, h.pads]
  · rw [remove_zones, remove_zones, h.zones]

theorem remove_foreign (h : b.Part own net c) (other : own id = false) :
    (b.remove id).Part own net c := by
  refine h.update (kept_remove b id) (fun n => ?_) ?_ ?_
  · rw [track?_remove, h.tracks]
    by_cases e : n = id
    · simp [e, other]
    · simp [e]
  · rw [remove_pads, h.pads]
  · rw [remove_zones, h.zones]

theorem modify (h : b.Part own net c) (owned : own id = true) {edit : Track → Track}
    (same : ∀ t, (edit t).net = t.net) :
    (b.modify id edit).Part own net (c.modify id edit) := by
  refine h.update (kept_modify b id same) (fun other => ?_) ?_ ?_
  · rw [track?_modify, track?_modify, h.tracks, h.tracks]
    by_cases e : other = id
    · simp [e, owned]
    · simp [e]
  · rw [modify_pads, modify_pads, h.pads]
  · rw [modify_zones, modify_zones, h.zones]

theorem modify_foreign (h : b.Part own net c) (other : own id = false) {edit : Track → Track}
    (same : ∀ t, (edit t).net = t.net) : (b.modify id edit).Part own net c := by
  refine h.update (kept_modify b id same) (fun n => ?_) ?_ ?_
  · rw [track?_modify, h.tracks]
    by_cases e : n = id
    · simp [e, other]
    · simp [e]
  · rw [modify_pads, h.pads]
  · rw [modify_zones, h.zones]

/-! ## Lists of tracks -/

theorem tracks_eq (h : b.Part own net c) : c.tracks = b.tracks.filter fun entry => own entry.1 := by
  refine tracks_eq_of (ids_pairwise List.filter_sublist) fun id t => ?_
  rw [List.mem_filter, mem_tracks, h.tracks]
  cases own id <;> simp

theorem ids (h : b.Part own net c) : c.ids = b.ids.filter own := by
  rw [Board.ids, h.tracks_eq, Board.ids, List.filter_map]
  rfl

theorem ids_filter (h : b.Part own net c) (p : Nat × Track → Bool) :
    (c.tracks.filter p).map (·.1) = ((b.tracks.filter p).map (·.1)).filter own := by
  rw [h.tracks_eq, List.filter_map, List.filter_filter, List.filter_filter]
  simp only [Function.comp_def, Bool.and_comm]

/-- A question that only tracks of the net answer. -/
theorem tracks_filter (h : b.Part own net c) {p : Nat × Track → Bool}
    (only : ∀ entry, p entry = true → entry.2.net = net) : c.tracks.filter p = b.tracks.filter p := by
  rw [h.tracks_eq, List.filter_filter]
  refine List.filter_congr fun (id, t) mem => ?_
  cases asked : p (id, t) with
  | false => rfl
  | true => rw [(h.nets id t (mem_tracks.mp mem)).mpr (only (id, t) asked), Bool.true_and]

theorem trackCount_le (h : b.Part own net c) : c.trackCount ≤ b.trackCount := by
  rw [trackCount, h.tracks_eq, trackCount]
  exact List.length_filter_le _ _

theorem copiesOf (h : b.Part own net c) (owned : own id = true) (there : b.track? id = some t) :
    Run.copiesOf c id t = Run.copiesOf b id t := by
  have sorted : c.NetSorted := h.sorted.of_kept fun n u live => by
    rw [h.tracks] at live
    split at live
    · exact ⟨u, live, rfl⟩
    · cases live
  rw [sorted.copiesOf_eq (by rw [h.mine owned, there]), h.sorted.copiesOf_eq there]
  simp only [copies, tracksAfter_eq, List.filter_filter]
  refine congrArg _ (h.tracks_filter fun entry asked => ?_)
  simp only [Bool.and_eq_true, beq_iff_eq] at asked
  rw [asked.1.1, h.net_eq owned there]

/-! ## Contacts -/

theorem itemsAt (h : b.Part own net c) (mine : t.net = net) {n : Neighbors}
    (sameNet : n.sameNet = true) (p : Point) :
    ContactSource.itemsAt Scan.mk c id t p n = ContactSource.itemsAt Scan.mk b id t p n := by
  refine congrArg _ (h.tracks_filter fun entry asked => ?_)
  simp only [Neighbors.wants, sameNet, Bool.not_true, Bool.false_or, Bool.and_eq_true,
    beq_iff_eq] at asked
  exact asked.2.2.trans mine

theorem connectedAt (h : b.Part own net c) (owned : own id = true) {n : Neighbors}
    (sameNet : n.sameNet = true) :
    ContactSource.connectedAt Scan.mk c id side n = ContactSource.connectedAt Scan.mk b id side n := by
  unfold ContactSource.connectedAt
  rw [h.mine owned]
  cases there : b.track? id with
  | none => rfl
  | some t => exact h.itemsAt (h.net_eq owned there) sameNet (t.point side)

theorem padsUnder (h : b.Part own net c) (t : Track) (side : Side) :
    c.padsUnder t side = b.padsUnder t side := by
  rw [Board.padsUnder, Board.padsAt, Board.padsWhere, h.pads]
  rfl

theorem onPad (h : b.Part own net c) (owned : own id = true) (side : Side) :
    ContactSource.onPad Scan.mk c id side = ContactSource.onPad Scan.mk b id side := by
  show (c.track? id).any _ = (b.track? id).any _
  rw [h.mine owned]
  simp only [h.padsUnder]

/-- The zone has another number, but it is there. -/
theorem zoneUnder_isNone (h : b.Part own net c) (mine : t.net = net) (side : Side) :
    (c.zoneUnder? t side).isNone = (b.zoneUnder? t side).isNone := by
  rw [Bool.eq_iff_iff, Option.isNone_iff_eq_none, Option.isNone_iff_eq_none]
  simp only [zoneUnder?, zoneAt?, List.findIdx?_eq_none_iff, h.zones, List.mem_filter, mine,
    Bool.and_eq_false_iff, beq_iff_eq, beq_eq_false_iff_ne]
  constructor
  · intro none z mem
    by_cases e : z.net = net
    · exact none z ⟨mem, e⟩
    · exact .inl e
  · exact fun none z mem => none z mem.1

/-! ## Open ends -/

theorem deadEnd (h : b.Part own net c) {other : Nat} {via : Track} (owned : own other = true)
    (mine : via.net = net) :
    CopperTidy.deadEnd Scan.mk c id other via = CopperTidy.deadEnd Scan.mk b id other via := by
  simp only [CopperTidy.deadEnd, h.onPad owned, h.itemsAt mine, h.zoneUnder_isNone mine]

theorem endDangles (h : b.Part own net c) (owned : own id = true) (side : Side) :
    CopperTidy.endDangles Scan.mk c id side = CopperTidy.endDangles Scan.mk b id side := by
  unfold CopperTidy.endDangles ContactSource.firstConnectedAt?
  rw [h.mine owned]
  cases there : b.track? id with
  | none => rfl
  | some t =>
    have mine : t.net = net := h.net_eq owned there
    have attached : ContactSource.connectedAt Scan.mk c id side { sameNet := true } =
        b.attached id side := h.connectedAt owned rfl
    have whole : ContactSource.connectedAt Scan.mk b id side { sameNet := true } =
        b.attached id side := rfl
    simp only [attached, whole, h.zoneUnder_isNone mine]
    cases first : (b.attached id side).head? with
    | none => rfl
    | some other =>
      obtain ⟨t', u, there', live, _, _, _, net⟩ := mem_attached.mp (List.mem_of_head? first)
      have owned' : own other = true := (h.own_eq there' live net).trans owned
      simp only [h.mine owned', live, h.deadEnd owned' (h.net_eq owned' live)]

theorem dangles (h : b.Part own net c) (owned : own id = true) :
    CopperTidy.dangles Scan.mk c id = CopperTidy.dangles Scan.mk b id := by
  simp only [CopperTidy.dangles, h.onPad owned, h.endDangles owned]

end Part
end Board
end CopperTidy
