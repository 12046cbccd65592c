import CopperTidy.Proofs.Pruning
import Mathlib.Logic.Equiv.Defs

/-! # Boards that are rearranged

Whether a track dangles does not depend on where it stands in the sequence, nor on which of its ends
is its start. So the dangling pass leaves corresponding tracks on boards that differ in this alone.
-/

namespace CopperTidy
set_option autoImplicit false
open Relation (ReflTransGen)

/-- Start and end in each other's place. -/
def Track.turned (t : Track) : Track := { t with start := t.stop, stop := t.start }

/-- The same track, or a trace or an arc turned round. -/
def Track.IsTurn (t u : Track) : Prop := u = t ∨ t.isVia = false ∧ u = t.turned

/-- The track of another slot. -/
def Conductor.moved (e : Nat ≃ Nat) : Conductor → Conductor
  | .track id => .track (e id)
  | .pad id => .pad id

namespace Track.IsTurn

variable {t u : Track}

theorem symm (h : t.IsTurn u) : u.IsTurn t := by
  rcases h with rfl | ⟨not_via, rfl⟩
  · exact .inl rfl
  · exact .inr ⟨not_via, rfl⟩

theorem eq_of_isVia (h : t.IsTurn u) (via : u.isVia = true) : t = u := by
  rcases h with rfl | ⟨not_via, rfl⟩
  · rfl
  · exact absurd via (Bool.eq_false_iff.mp not_via)

theorem net (h : t.IsTurn u) : u.net = t.net := by
  rcases h with rfl | ⟨_, rfl⟩ <;> rfl

theorem layers (h : t.IsTurn u) : u.layers = t.layers := by
  rcases h with rfl | ⟨_, rfl⟩ <;> rfl

theorem layerPair (h : t.IsTurn u) : u.layerPair = t.layerPair := by
  rcases h with rfl | ⟨_, rfl⟩ <;> rfl

theorem exists_point (h : t.IsTurn u) (side : Side) : ∃ at_side, u.point at_side = t.point side := by
  rcases h with rfl | ⟨_, rfl⟩
  · exact ⟨side, rfl⟩
  · refine ⟨side.opposite, ?_⟩
    cases side <;> rfl

theorem hasEndAt (h : t.IsTurn u) (p : Point) : u.hasEndAt p = t.hasEndAt p := by
  rcases h with rfl | ⟨_, rfl⟩
  · rfl
  · exact Bool.or_comm _ _

end Track.IsTurn

namespace Board

/-- The tracks of a board in other slots, and some of them turned round. -/
structure Rearranged (e : Nat ≃ Nat) (b c : Board) : Prop where
  tracks : ∀ id, Option.Rel Track.IsTurn (b.track? id) (c.track? (e id))
  pads : c.pads = b.pads
  zones : c.zones = b.zones

namespace Rearranged

variable {e : Nat ≃ Nat} {b c d b' : Board} {id v : Nat} {t u via : Track} {net : UInt32} {p : Point}
  {k : Nat} {side : Side} {x : Conductor}

theorem track? (h : Rearranged e b c) (there : b.track? id = some t) :
    ∃ u, c.track? (e id) = some u ∧ t.IsTurn u := by
  have tracks := h.tracks id
  rw [there] at tracks
  generalize c.track? (e id) = slot at tracks
  cases tracks with
  | some turn => exact ⟨_, rfl, turn⟩

theorem symm (h : Rearranged e b c) : Rearranged e.symm c b := by
  refine ⟨fun id => ?_, h.pads.symm, h.zones.symm⟩
  have tracks := h.tracks (e.symm id)
  rw [Equiv.apply_symm_apply] at tracks
  generalize b.track? (e.symm id) = before, c.track? id = after at tracks ⊢
  cases tracks with
  | none => exact .none
  | some turn => exact .some turn.symm

theorem remove (h : Rearranged e b c) (id : Nat) :
    Rearranged e (b.remove id) (c.remove (e id)) := by
  refine ⟨fun other => ?_, ?_, ?_⟩
  · rw [track?_remove, track?_remove]
    by_cases same : other = id
    · rw [if_pos same, if_pos (congrArg e same)]
      exact .none
    · rw [if_neg same, if_neg (e.injective.ne same)]
      exact h.tracks other
  · rw [remove_pads, remove_pads, h.pads]
  · rw [remove_zones, remove_zones, h.zones]

/-- Rearranging is a matter of tracks, pads and zones. -/
theorem congr (h : Rearranged e b c) (sameB : b.Contains b' ∧ b'.Contains b)
    (sameC : c.Contains d ∧ d.Contains c) : Rearranged e b' d := by
  have eq {x y : Board} (same : x.Contains y ∧ y.Contains x) (id : Nat) :
      x.track? id = y.track? id :=
    Option.ext fun _ => ⟨same.2.was, same.1.was⟩
  refine ⟨fun id => ?_, ?_, ?_⟩
  · rw [← eq sameB, ← eq sameC]
    exact h.tracks id
  · rw [sameC.1.pads, h.pads, sameB.1.pads]
  · rw [sameC.1.zones, h.zones, sameB.1.zones]

theorem straight (h : Rearranged e b c) (straight : b.StraightVias) : c.StraightVias := by
  intro id u live
  obtain ⟨t, there, turn⟩ := h.symm.track? live
  by_cases via : u.isVia = true
  · exact straight _ u (turn.symm.eq_of_isVia via ▸ there)
  · simp [Run.isMalformedVia, via]

theorem copper (h : Rearranged e b c) (copper : b.CopperVias) : c.CopperVias := by
  intro id u span live shape
  have via : u.isVia = true := by simp [Track.isVia, shape]
  obtain ⟨t, there, turn⟩ := h.symm.track? live
  exact copper _ u span (turn.symm.eq_of_isVia via ▸ there) shape

/-! ## Open ends -/

theorem reaches (h : Rearranged e b c) (reached : c.Reaches net x p k) :
    b.Reaches net (x.moved e.symm) p k := by
  cases x with
  | pad n =>
    obtain ⟨pad, listed, facts⟩ := reaches_pad.mp reached
    rw [pad?, h.pads] at listed
    exact reaches_pad.mpr ⟨pad, listed, facts⟩
  | track n =>
    obtain ⟨u, live, inNet, ends, layer⟩ := reaches_track.mp reached
    obtain ⟨t, there, turn⟩ := h.symm.track? live
    refine reaches_track.mpr ⟨t, there, turn.net.trans inNet, ?_, ?_⟩
    · rwa [turn.hasEndAt]
    · rwa [turn.layers]

theorem lonely (h : Rearranged e b c) {layers : LayerSet} {but : List Conductor}
    (lonely : b.Lonely net p layers but) : c.Lonely net p layers (but.map (·.moved e)) := by
  intro x k layer reached
  refine List.mem_map.mpr ⟨_, lonely _ k layer (h.reaches reached), ?_⟩
  cases x with
  | pad n => rfl
  | track n => exact congrArg Conductor.track (e.apply_symm_apply n)

theorem padFree (h : Rearranged e b c) {layers : LayerSet} (free : b.PadFree p layers) :
    c.PadFree p layers := by
  rwa [PadFree, h.pads]

theorem deadEnd (h : Rearranged e b c) (dead : b.DeadEnd id v via) :
    c.DeadEnd (e id) (e v) via := by
  obtain ⟨u, there, turn⟩ := h.track? dead.there
  cases turn.symm.eq_of_isVia (isThroughVia_isVia dead.through)
  refine ⟨there, dead.through, h.padFree dead.padFree, h.lonely dead.lonely, ?_⟩
  rw [zoneUnder?, zoneAt?, h.zones]
  exact dead.noZone

theorem exists_loose (h : Rearranged e b c) (turn : t.IsTurn u) (loose : b.Loose id t side) :
    ∃ at_side, c.Loose (e id) u at_side := by
  obtain ⟨at_side, place⟩ := turn.exists_point side
  refine ⟨at_side, ?_⟩
  cases loose with
  | free padFree lonely noZone =>
    refine .free ?_ ?_ ?_
    · rw [place, turn.layers]
      exact h.padFree padFree
    · rw [place, turn.layers, turn.net]
      exact h.lonely lonely
    · rwa [zoneUnder?, zoneAt?, h.zones, place, turn.layerPair, turn.net]
  | @atVia v via padFree ne net at_end shares dead =>
    refine .atVia ?_ (e.injective.ne ne) (net.trans turn.net.symm) (at_end.trans place.symm) ?_
      (h.deadEnd dead)
    · rw [place, turn.layers]
      exact h.padFree padFree
    · rwa [Track.sharesLayer, turn.layers]

theorem dangling (h : Rearranged e b c) (straight : b.StraightVias) (copper : b.CopperVias)
    (loose : b.Dangling id) : c.Dangling (e id) := by
  rw [dangling_iff] at loose ⊢
  obtain ⟨t, there⟩ := exists_track_of_dangles loose
  obtain ⟨u, live, turn⟩ := h.track? there
  obtain ⟨side, loose⟩ := Board.exists_loose straight there loose
  obtain ⟨at_side, loose⟩ := h.exists_loose turn loose
  exact loose.dangles (h.copper copper) live

theorem anchored (h : Rearranged e b c) (straight : b.StraightVias) (copper : b.CopperVias)
    (anchored : b.Anchored) : c.Anchored := fun id loose =>
  anchored (e.symm id) (h.symm.dangling (h.straight straight) (h.copper copper) loose)

/-- Removals on the one board can be followed on the other. -/
theorem pruned (h : Rearranged e b c) (straight : b.StraightVias) (copper : b.CopperVias)
    (chain : ReflTransGen Prunes b d) : ∃ d', ReflTransGen Prunes c d' ∧ Rearranged e d d' := by
  induction chain with
  | refl => exact ⟨c, .refl, h⟩
  | tail before last ih =>
    obtain ⟨d', chain, same⟩ := ih
    obtain ⟨id, loose, rfl⟩ := last
    have since := contains_of_pruned before
    have loose' := same.dangling (since.straight straight) (since.copper copper) loose
    exact ⟨d'.remove (e id), chain.tail ⟨e id, loose', rfl⟩, same.remove id⟩

end Rearranged
end Board

/-! ## The dangling pass -/

namespace Run

/-- The dangling pass comes to an end, with the greatest part of the board in which nothing dangles.
So it does when tracks are taken away one by one, as long as any dangles; and on a board that is
rearranged it leaves the corresponding tracks. -/
theorem deleteDangling_greatest {σ : Type} (r : Run Contacts σ) (h : r.Coherent)
    (straight : r.board.StraightVias) (copper : r.board.CopperVias) :
    let b := r.board
    let c := r.deleteDangling.1.board
    (∀ limit, b.trackCount ≤ limit → report (danglingRounds limit r) = report r.deleteDangling) ∧
      (c.pads = b.pads ∧ c.zones = b.zones ∧ c.tracks = (b.only c.live).tracks) ∧
      IsGreatest {kept : Finset Nat | kept ⊆ b.live ∧ (b.only kept).Anchored} c.live ∧
      (∀ d, ReflTransGen Board.Prunes b d →
        (∀ d', d.Prunes d' → d'.trackCount < d.trackCount) ∧ (d.Anchored → d.tracks = c.tracks)) ∧
      ∀ (e : Nat ≃ Nat) (s : Run Contacts σ), s.Coherent → Board.Rearranged e b s.board →
        Board.Rearranged e c s.deleteDangling.1.board := by
  intro b c
  have chain : ReflTransGen Board.Prunes b c := pruned_danglingRounds _ h straight copper
  have anchored : c.Anchored := deleteDangling_anchored h
  have since : b.Contains c := Board.contains_of_pruned chain
  refine ⟨fun limit => report_danglingRounds h, ⟨since.pads, since.zones, ?_⟩,
    Board.isGreatest_of_pruned straight copper chain anchored, fun d pruned => ⟨?_, ?_⟩, ?_⟩
  · exact (Board.only_live_contains since).tracks_eq (Board.contains_only_live since)
  · exact fun d' step => step.trackCount_lt
  · intro done
    obtain ⟨part, part'⟩ := Board.pruned_unique straight copper chain pruned anchored done
    exact part.tracks_eq part'
  · intro e s coherent arranged
    have straight' := arranged.straight straight
    have copper' := arranged.copper copper
    obtain ⟨d, pruned, same⟩ := arranged.pruned straight copper chain
    have done : d.Anchored :=
      same.anchored (since.straight straight) (since.copper copper) anchored
    have chain' : ReflTransGen Board.Prunes s.board s.deleteDangling.1.board :=
      pruned_danglingRounds _ coherent straight' copper'
    have ends := deleteDangling_anchored coherent
    exact same.congr ⟨.refl c, .refl c⟩
      (Board.pruned_unique straight' copper' pruned chain' done ends)

/-- A trace between two pads, and one that leads from a pad to a via, from which a trace on the back
leads nowhere. -/
def frayed : Board :=
  let trace (uuid : String) (layer : Layer) (start stop : Point) : Option Track :=
    some ⟨uuid, start, stop, 200, layer, 1, .trace⟩
  { slots := [trace "a" .front ⟨0, 0⟩ ⟨10, 0⟩, some (.ofVia "v" ⟨10, 0⟩ 600 1 (.through 300)),
      trace "b" .back ⟨10, 0⟩ ⟨20, 0⟩, trace "c" .front ⟨0, 0⟩ ⟨0, 10⟩]
    pads := [⟨"U1", "1", ⟨0, 0⟩, 1, .single .front, .smd⟩,
      ⟨"U1", "2", ⟨0, 10⟩, 1, .single .front, .smd⟩] }

/-- The trace on the back goes first, then the one on the front, and then the via. -/
theorem deleteDangling_greatest_frayed :
    let r : Run Contacts Unit := start frayed .silent ()
    r.Coherent ∧ frayed.StraightVias ∧ frayed.CopperVias ∧
      IsGreatest {kept : Finset Nat | kept ⊆ frayed.live ∧ (frayed.only kept).Anchored} {3} := by
  intro r
  have coherent : r.Coherent := (start_fresh frayed .silent ()).coherent
  have straight : frayed.StraightVias := Board.forall_track?_iff.mpr (by decide)
  have shapes : ∀ id t, frayed.track? id = some t →
      t.shape = .trace ∨ t.shape = .via (.through 300) := Board.forall_track?_iff.mpr (by decide)
  have copper : frayed.CopperVias := by
    intro id t span there shape
    rcases shapes id t there with e | e
    · rw [e] at shape
      cases shape
    · rw [e] at shape
      cases shape
      decide
  have left_over : r.deleteDangling.1.board.live = {3} := by decide +kernel
  obtain ⟨_, _, greatest, _⟩ := deleteDangling_greatest r coherent straight copper
  rw [left_over] at greatest
  exact ⟨coherent, straight, copper, greatest⟩

end Run
end CopperTidy
