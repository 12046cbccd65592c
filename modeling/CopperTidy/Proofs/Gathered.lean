import CopperTidy.Board.PointTable
import CopperTidy.Copper.Lemmas
import CopperTidy.Proofs.Moves

/-! # What a snapshot knows

The rows of a snapshot are gathered from two tables of points. A track that ends where another one
does is found there once for each end that they share, and a pad once for each end that lies on it,
but no row has anything twice. A row shows just what meets its track. The table of track ends that a
snapshot keeps goes out of date with the board, and then still gives answers that hold on the board
as it is. As long as the snapshot is current its answers are complete.
-/

namespace CopperTidy
set_option autoImplicit false

/-! ## Filling a row -/

namespace Touching

variable {xs found : List Nat} {row : Touching}

theorem foldl_addNew (once : xs.Nodup) :
    xs.foldl addNew found = found ++ xs.filter fun n => !found.contains n := by
  induction xs generalizing found with
  | nil => rw [List.foldl_nil, List.filter_nil, List.append_nil]
  | cons x rest ih =>
    obtain ⟨fresh, once'⟩ := List.nodup_cons.mp once
    rw [List.foldl_cons, ih once', addNew]
    by_cases mem : x ∈ found
    · simp [mem]
    · have others : (rest.filter fun n => !(found ++ [x]).contains n) =
          rest.filter fun n => !found.contains n := by
        refine List.filter_congr fun n later => ?_
        have ne : n ≠ x := fun e => fresh (e ▸ later)
        simp [ne]
      rw [if_neg (by simpa using mem), others, List.filter_cons_of_pos (by simpa using mem),
        List.append_assoc, List.singleton_append]

theorem foldl_addTrack (row : Touching) (xs : List Nat) :
    xs.foldl (fun row other => { row with tracks := addNew row.tracks other }) row =
      { row with tracks := xs.foldl addNew row.tracks } := by
  induction xs generalizing row with
  | nil => rfl
  | cons x rest ih => exact ih _

theorem foldl_addPad (side : Side) (row : Touching) (xs : List Nat) :
    xs.foldl (addPad side) row =
      { row with pads := xs.foldl addNew row.pads }.setPad ((row.padAt side).or xs.head?) side := by
  induction xs generalizing row with
  | nil => cases side <;> simp [setPad, padAt]
  | cons x rest ih =>
    rw [List.foldl_cons, ih]
    cases side <;> simp [addPad, setPad, padAt]

end Touching

theorem PointTable.look_ofTracks (tracks : List (Nat × Track)) (p : Point) :
    (PointTable.ofTracks tracks).look p =
      (tracks.filter fun entry => entry.2.hasEndAt p).map (·.1) :=
  (look_ofEntries _).trans (Contacts.endingAt_of_entries p tracks)

namespace Board

variable {b : Board} {id other : Nat} {t : Track}

/-- Other live tracks that end at a point on a layer of a track. -/
def tracksMeeting (b : Board) (id : Nat) (t : Track) (p : Point) : List Nat :=
  (b.tracks.filter fun entry =>
    entry.2.hasEndAt p && (entry.1 != id && entry.2.sharesLayer t)).map (·.1)

theorem filter_endTable (b : Board) (id : Nat) (t : Track) (p : Point) :
    (b.endTable.look p).filter (fun other =>
      other != id && (b.track? other).any (·.sharesLayer t)) = b.tracksMeeting id t p := by
  rw [endTable, PointTable.look_ofTracks, List.filter_map, List.filter_filter, tracksMeeting]
  congr 1
  refine List.filter_congr fun entry mem => ?_
  have live : b.track? entry.1 = some entry.2 := mem_tracks.mp mem
  simp only [Function.comp_apply, live, Option.any_some]
  exact Bool.and_comm _ _

theorem filter_padTable (b : Board) (p : Point) (layers : LayerSet) :
    (b.padTable.look p).filter (fun pad => (b.pad? pad).any (·.hits p layers)) =
      b.padsAt p layers := by
  rw [padTable, PointTable.look_ofEntries, List.filter_map, List.filter_map, List.filter_map,
    List.map_map, List.filter_filter, padsAt, padsWhere]
  congr 1
  refine List.filter_congr fun entry mem => ?_
  have listed : b.pad? entry.2 = some entry.1 := List.mem_zipIdx_iff_getElem?.mp mem
  simp only [Function.comp_apply, listed, Option.any_some, Pad.hits]
  cases entry.1.position == p <;> simp

theorem mem_tracksMeeting {p : Point} : other ∈ b.tracksMeeting id t p ↔
    other ≠ id ∧ ∃ u, b.track? other = some u ∧ u.hasEndAt p = true ∧ u.sharesLayer t = true := by
  rw [tracksMeeting, mem_ids_filter]
  simp only [Bool.and_eq_true, bne_iff_ne]
  constructor
  · rintro ⟨u, live, here, ne, layer⟩
    exact ⟨ne, u, live, here, layer⟩
  · rintro ⟨ne, u, live, here, layer⟩
    exact ⟨u, live, here, ne, layer⟩

theorem mem_tracksTouching : other ∈ b.tracksTouching id t ↔
    other ≠ id ∧ ∃ u, b.track? other = some u ∧ t.touches u = true := by
  rw [tracksTouching, mem_ids_filter]
  simp only [Bool.and_eq_true, bne_iff_ne]
  constructor
  · rintro ⟨u, live, ne, touch⟩
    exact ⟨ne, u, live, touch⟩
  · rintro ⟨ne, u, live, touch⟩
    exact ⟨u, live, ne, touch⟩

theorem tracksTouching_ascending (b : Board) (id : Nat) (t : Track) :
    (b.tracksTouching id t).Pairwise (· < ·) := b.ids_filter_ascending _

theorem tracksMeeting_nodup (b : Board) (id : Nat) (t : Track) (p : Point) :
    (b.tracksMeeting id t p).Nodup := b.ids_filter_nodup _

theorem padsAt_ascending (b : Board) (p : Point) (layers : LayerSet) :
    (b.padsAt p layers).Pairwise (· < ·) := by
  have numbers : (b.pads.zipIdx.map (·.2)).Pairwise (· < ·) := by
    rw [List.zipIdx_map_snd]
    exact List.pairwise_lt_range'
  exact numbers.sublist (List.filter_sublist.map _)

theorem padsUnder_nodup (b : Board) (t : Track) (side : Side) : (b.padsUnder t side).Nodup :=
  (b.padsAt_ascending _ _).imp Nat.ne_of_lt

end Board

namespace Touching

variable {b : Board} {ends pads : PointTable} {id : Nat} {t : Track}

/-! ## A row from tables in any order -/

theorem gatherAt_eq (sameEnds : ends.Rearranged b.endTable) (samePads : pads.Rearranged b.padTable)
    (row : Touching) (side : Side) :
    gatherAt b ends pads id t row side =
      { row with
        pads := (b.padsUnder t side).foldl addNew row.pads
        tracks := (b.tracksMeeting id t (t.point side)).foldl addNew row.tracks }.setPad
          ((row.padAt side).or (b.padsUnder t side).head?) side := by
  unfold gatherAt
  simp only
  rw [← List.foldl_filter, ← List.foldl_filter, samePads.look_eq, sameEnds.look_eq,
    Board.filter_padTable, Board.filter_endTable, foldl_addTrack, foldl_addPad]
  cases side <;> rfl

/-- Tracks at the start, and after them those at the end that are not there yet, are all that touch. -/
theorem meeting_perm (b : Board) (id : Nat) (t : Track) :
    ((b.tracksMeeting id t t.stop).foldl addNew (b.tracksMeeting id t t.start)).Perm
      (b.tracksTouching id t) := by
  have once := b.tracksMeeting_nodup id t
  have ascending := b.tracksTouching_ascending id t
  rw [foldl_addNew (once t.stop)]
  refine (List.perm_ext_iff_of_nodup ?_ (ascending.imp Nat.ne_of_lt)).mpr fun other => ?_
  · refine List.nodup_append.mpr ⟨once _, (once _).filter _, ?_⟩
    rintro n first m second rfl
    simp [first] at second
  · have either : other ∈ b.tracksMeeting id t t.start ++ (b.tracksMeeting id t t.stop).filter
        (fun n => !(b.tracksMeeting id t t.start).contains n) ↔
        other ∈ b.tracksMeeting id t t.start ∨ other ∈ b.tracksMeeting id t t.stop := by
      by_cases first : other ∈ b.tracksMeeting id t t.start <;> simp [first]
    rw [either, Board.mem_tracksMeeting, Board.mem_tracksMeeting, Board.mem_tracksTouching,
      ← and_or_left, ← exists_or]
    simp only [Track.touches, Track.sharesLayer_comm t, Bool.and_eq_true, Bool.or_eq_true]
    grind

theorem sort_meeting (b : Board) (id : Nat) (t : Track) :
    ((b.tracksMeeting id t t.stop).foldl addNew (b.tracksMeeting id t t.start)).mergeSort (· ≤ ·) =
      b.tracksTouching id t := by
  have ascending := b.tracksTouching_ascending id t
  have trans (k m n : Nat) (first : decide (k ≤ m) = true) (second : decide (m ≤ n) = true) :
      decide (k ≤ n) = true :=
    decide_eq_true (Nat.le_trans (of_decide_eq_true first) (of_decide_eq_true second))
  have total (m n : Nat) : (decide (m ≤ n) || decide (n ≤ m)) = true := by simp [Nat.le_total]
  have sorted := List.pairwise_mergeSort trans total
    ((b.tracksMeeting id t t.stop).foldl addNew (b.tracksMeeting id t t.start))
  exact ((List.mergeSort_perm _ _).trans (meeting_perm b id t)).eq_of_pairwise
    (fun m n _ _ => Nat.le_antisymm) (sorted.imp of_decide_eq_true) (ascending.imp Nat.le_of_lt)

/-- The guards against listing a thing twice leave each thing once, and nothing out. -/
theorem gather_eq (sameEnds : ends.Rearranged b.endTable) (samePads : pads.Rearranged b.padTable) :
    gather b ends pads id t = Touching.of b id t := by
  have padsOnce := b.padsUnder_nodup t
  have tracksOnce := b.tracksMeeting_nodup id t
  have first {xs : List Nat} (once : xs.Nodup) : xs.foldl addNew [] = xs := by
    rw [foldl_addNew once]
    simp
  unfold gather
  rw [List.foldl_cons, List.foldl_cons, List.foldl_nil, gatherAt_eq sameEnds samePads,
    gatherAt_eq sameEnds samePads]
  simp only [setPad, padAt, Track.point, first (padsOnce _), first (tracksOnce _), sort_meeting,
    foldl_addNew (padsOnce _), Option.none_or]
  rfl

end Touching

/-! ## Answers -/

namespace Board

variable {b : Board} {id pad : Nat} {t : Track} {side : Side}

/-- The pad connects to an end of a track, on one of the layers of the track. -/
def PadUnder (b : Board) (t : Track) (side : Side) (pad : Nat) : Prop :=
  ∃ found, b.pad? pad = some found ∧ found.hits (t.point side) t.layers = true

/-- What a look for tracks at a point is for: `other` is a live track that ends there and shares a
layer with the track `id` that is `t`, on its net if that is asked for, and is not to be left out. -/
def ItemAt (b : Board) (id : Nat) (t : Track) (p : Point) (n : Neighbors) (other : Nat) : Prop :=
  other ≠ id ∧ other ∉ n.exclude ∧ ∃ u, b.track? other = some u ∧ u.hasEndAt p = true ∧
    u.sharesLayer t = true ∧ (n.sameNet = true → u.net = t.net)

theorem mem_padsUnder : pad ∈ b.padsUnder t side ↔ b.PadUnder t side pad := by
  rw [padsUnder, padsAt, mem_padsWhere, PadUnder]

theorem mem_padsUnderEnds_iff : pad ∈ b.padsUnderEnds t ↔ ∃ side, b.PadUnder t side pad := by
  simp only [mem_padsUnderEnds, Pad.meets, Bool.or_eq_true, PadUnder]
  constructor
  · rintro ⟨found, there, hits | hits⟩
    · exact ⟨.start, found, there, hits⟩
    · exact ⟨.stop, found, there, hits⟩
  · rintro ⟨_ | _, found, there, hits⟩
    · exact ⟨found, there, .inl hits⟩
    · exact ⟨found, there, .inr hits⟩

theorem padsUnderEnds_nodup (b : Board) (t : Track) : (b.padsUnderEnds t).Nodup := by
  refine List.nodup_append.mpr ⟨b.padsUnder_nodup t _, (b.padsUnder_nodup t _).filter _, ?_⟩
  rintro n first m second rfl
  simp [first] at second

/-- The pad that is kept for an end is the first of those that lie there. -/
theorem head?_padsUnder : (b.padsUnder t side).head? = some pad ↔
    b.PadUnder t side pad ∧ ∀ other, b.PadUnder t side other → pad ≤ other := by
  have ascending : (b.padsUnder t side).Pairwise (· < ·) := b.padsAt_ascending _ _
  simp only [← mem_padsUnder]
  cases found : b.padsUnder t side with
  | nil => simp
  | cons first rest =>
    rw [found] at ascending
    have above := (List.pairwise_cons.mp ascending).1
    rw [List.head?_cons, Option.some_inj]
    constructor
    · rintro rfl
      refine ⟨List.mem_cons_self, fun other mem => ?_⟩
      rcases List.mem_cons.mp mem with rfl | mem
      · exact Nat.le_refl _
      · exact Nat.le_of_lt (above other mem)
    · rintro ⟨mem, least⟩
      rcases List.mem_cons.mp mem with rfl | mem
      · rfl
      · exact absurd (above pad mem) (Nat.not_lt.mpr (least first List.mem_cons_self))

theorem head?_padsUnder_none :
    (b.padsUnder t side).head? = none ↔ ∀ pad, ¬ b.PadUnder t side pad := by
  simp only [List.head?_eq_none_iff, List.eq_nil_iff_forall_not_mem, mem_padsUnder]

end Board

theorem Neighbors.wants_iff {n : Neighbors} {id other : Nat} {t u : Track} :
    n.wants id t other u = true ↔ other ≠ id ∧ other ∉ n.exclude ∧ u.sharesLayer t = true ∧
      (n.sameNet = true → u.net = t.net) := by
  cases same : n.sameNet <;> simp [wants, same, and_assoc]

namespace Contacts

variable {b b' : Board}

theorem mem_itemsAt {c : Contacts} {id other : Nat} {t : Track} {p : Point} {n : Neighbors} :
    other ∈ c.itemsAt b' id t p n ↔ other ∈ c.endingAt p ∧ b'.ItemAt id t p n other := by
  rw [itemsAt, List.mem_filter, Option.any_eq_true]
  refine and_congr_right fun _ => ?_
  simp only [Bool.and_eq_true, Neighbors.wants_iff]
  constructor
  · rintro ⟨u, live, here, ne, kept, layer, net⟩
    exact ⟨ne, kept, u, live, here, layer, net⟩
  · rintro ⟨ne, kept, u, live, here, layer, net⟩
    exact ⟨u, live, here, ne, kept, layer, net⟩

theorem mem_endingAt_build {p : Point} {other : Nat} :
    other ∈ (build b).endingAt p ↔ ∃ u, b.track? other = some u ∧ u.hasEndAt p = true := by
  rw [endingAt_build]
  exact Board.mem_ids_filter

theorem itemsAt_ascending (id : Nat) (t : Track) (p : Point) (n : Neighbors) :
    ((build b).itemsAt b' id t p n).Pairwise (· < ·) := by
  have ends : ((build b).endingAt p).Pairwise (· < ·) := by
    rw [endingAt_build]
    exact b.ids_filter_ascending _
  exact ends.filter _

/-- A snapshot that calls itself current was taken of the very board. -/
theorem eq_of_isCurrent (later : Board.Later b b') (current : (build b).isCurrent b' = true) :
    b' = b :=
  later.eq_of_revision (beq_iff_eq.mp current).symm

/-- A snapshot has a row for each live track. The row lists once, in sequence order, the other live
tracks that share an end and a layer with it, and once each pad that it ends on; the lowest pad of
an end is kept as the pad of that end. To touch goes both ways. The tables that rows are gathered
from give the same rows in any order. On any later board the tracks found at a point are listed in
sequence order, and all of them are wanted and still there; if the snapshot calls itself current,
then it is of this very board and none is missing. -/
theorem build_exact (b : Board) :
    let c := build b
    (∀ id, (c.row? id).isSome = true ↔ (b.track? id).isSome = true) ∧
    (∀ id t row, b.track? id = some t → c.row? id = some row →
      (row.tracks.Pairwise (· < ·) ∧ ∀ other, other ∈ row.tracks ↔
        other ≠ id ∧ ∃ u, b.track? other = some u ∧
          ∃ p, t.hasEndAt p = true ∧ u.hasEndAt p = true ∧ t.sharesLayer u = true) ∧
      (row.pads.Nodup ∧ ∀ pad, pad ∈ row.pads ↔ ∃ side, b.PadUnder t side pad) ∧
      ∀ side, (∀ pad, row.padAt side = some pad ↔
          b.PadUnder t side pad ∧ ∀ other, b.PadUnder t side other → pad ≤ other) ∧
        (row.padAt side = none ↔ ∀ pad, ¬ b.PadUnder t side pad)) ∧
    (∀ id other row row', c.row? id = some row → c.row? other = some row' →
      (other ∈ row.tracks ↔ id ∈ row'.tracks)) ∧
    (∀ ends pads : PointTable, ends.Rearranged b.endTable → pads.Rearranged b.padTable →
      (∀ p, ends.look p = c.endingAt p) ∧
      ∀ id t, b.track? id = some t → c.row? id = some (Touching.gather b ends pads id t)) ∧
    ∀ b', Board.Later b b' →
      (∀ id t p n, (c.itemsAt b' id t p n).Pairwise (· < ·) ∧
        ∀ other ∈ c.itemsAt b' id t p n, b'.ItemAt id t p n other) ∧
      (c.isCurrent b' = true →
        b'.slots = b.slots ∧ b'.pads = b.pads ∧ b'.zones = b.zones ∧
        ∀ id t p n other, other ∈ c.itemsAt b' id t p n ↔ b'.ItemAt id t p n other) := by
  intro c
  have row_eq {id : Nat} {t : Track} {row : Touching} (live : b.track? id = some t)
      (found : c.row? id = some row) : row = Touching.of b id t := by
    rw [row?_build, live] at found
    exact (Option.some.inj found).symm
  refine ⟨fun id => ?_, fun id t row live found => ?_, fun id other row row' found found' => ?_,
    fun ends pads sameEnds samePads => ⟨fun p => ?_, fun id t live => ?_⟩,
    fun b' later => ⟨fun id t p n => ?_, fun current => ?_⟩⟩
  · rw [row?_build, Option.isSome_map]
  · cases row_eq live found
    refine ⟨⟨b.tracksTouching_ascending id t, fun other => ?_⟩,
      ⟨b.padsUnderEnds_nodup t, fun pad => Board.mem_padsUnderEnds_iff⟩, fun side => ?_⟩
    · simp only [← Track.touches_iff]
      exact Board.mem_tracksTouching
    · cases side with
      | start => exact ⟨fun pad => Board.head?_padsUnder, Board.head?_padsUnder_none⟩
      | stop => exact ⟨fun pad => Board.head?_padsUnder, Board.head?_padsUnder_none⟩
  · obtain ⟨t, live, rfl⟩ := Option.map_eq_some_iff.mp ((row?_build b id).symm.trans found)
    obtain ⟨u, live', rfl⟩ := Option.map_eq_some_iff.mp ((row?_build b other).symm.trans found')
    show other ∈ b.tracksTouching id t ↔ id ∈ b.tracksTouching other u
    simp only [Board.mem_tracksTouching, live, live', Option.some.injEq, exists_eq_left',
      Track.touches_comm t u, ne_comm]
  · rw [sameEnds.look_eq, endingAt_build]
    exact PointTable.look_ofTracks _ p
  · rw [Touching.gather_eq sameEnds samePads, row?_build, live]
    rfl
  · exact ⟨itemsAt_ascending id t p n, fun other mem => (mem_itemsAt.mp mem).2⟩
  · cases eq_of_isCurrent later current
    refine ⟨rfl, rfl, rfl, fun id t p n other => mem_itemsAt.trans ⟨And.right, fun item => ⟨?_, item⟩⟩⟩
    obtain ⟨_, _, u, live, here, _⟩ := item
    exact mem_endingAt_build.mpr ⟨u, live, here⟩

/-- Two tracks that meet at both ends, one that ends where it starts, one on the back layer, and
three pads in one place, of which the first is not plated. -/
def knotted : Board :=
  let wire (start stop : Point) (layer : Layer) (net : UInt32) :=
    some ⟨"w", start, stop, 200, layer, net, .trace⟩
  { slots := [wire ⟨0, 0⟩ ⟨10, 0⟩ .front 1, wire ⟨10, 0⟩ ⟨0, 0⟩ .front 2,
      wire ⟨0, 0⟩ ⟨0, 0⟩ .front 1, wire ⟨0, 0⟩ ⟨5, 5⟩ .back 1]
    pads := [⟨"H1", "1", ⟨0, 0⟩, 1, .allCopper, .nonPlated⟩,
      ⟨"U1", "1", ⟨0, 0⟩, 1, .single .front, .smd⟩, ⟨"U2", "1", ⟨0, 0⟩, 2, .allCopper, .smd⟩] }

/-- The row of the first track, and what the snapshot finds when the second track is gone. -/
theorem build_exact_knotted :
    let gone := knotted.remove 1
    let t : Track := ⟨"w", ⟨0, 0⟩, ⟨10, 0⟩, 200, .front, 1, .trace⟩
    (∃ row, (build knotted).row? 0 = some row ∧ row = ⟨some 1, none, [1, 2], [1, 2]⟩ ∧
      row.tracks.Pairwise (· < ·) ∧ row.pads.Nodup ∧ ∀ pad, ¬ knotted.PadUnder t .stop pad) ∧
    Board.Later knotted gone ∧ (build knotted).itemsAt gone 0 t ⟨0, 0⟩ {} = [2] ∧
      gone.ItemAt 0 t ⟨0, 0⟩ {} 2 := by
  intro gone t
  obtain ⟨_, rows, _, _, later⟩ := build_exact knotted
  have removed : Board.Later knotted gone := .step .refl (.remove knotted 1)
  have found : (build knotted).itemsAt gone 0 t ⟨0, 0⟩ {} = [2] := by decide
  have row : (build knotted).row? 0 = some ⟨some 1, none, [1, 2], [1, 2]⟩ := by decide
  obtain ⟨⟨ascending, _⟩, ⟨once, _⟩, pads⟩ := rows 0 t _ rfl row
  have sound := ((later gone removed).1 0 t ⟨0, 0⟩ {}).2 2 (by rw [found]; exact List.mem_cons_self)
  exact ⟨⟨_, row, rfl, ascending, once, (pads .stop).2.mp rfl⟩, removed, found, sound⟩

end Contacts
end CopperTidy
