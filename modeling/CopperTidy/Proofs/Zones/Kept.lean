import CopperTidy.Proofs.Islands.Cleaned
import CopperTidy.Proofs.Zones.Walks

/-! # Zone connections through a cleaning

A move takes few spots from a walk: the open end of a track that dangles, and the junction of a
merge. The walk can be led past them, to the other end of the track and along the longer trace. What
this may cost is the zone: the dangling pass leaves an end in a zone alone, but a merge does not
look for zones.
-/

namespace CopperTidy.Board
set_option autoImplicit false
open Relation (TransGen ReflTransGen)

variable {b c past : Board} {o : Options} {net : UInt32} {pad : Pad} {z : Zone} {id other : Nat}
  {side : Side} {t u : Track} {x y : Point × Nat} {cs : List Change}

/-! ## Walks on another board -/

theorem LeadsInto.along (h : b.LeadsInto pad z)
    (steps : ∀ w v, b.Along z.net w v → ReflTransGen (c.Along z.net) w v) :
    c.LeadsInto pad z := by
  obtain ⟨x, y, at_pad, walk, holds⟩ := h
  exact ⟨x, y, at_pad, Relation.reflTransGen_closed steps x y walk, holds⟩

/-- Every spot stays what it is, but for one. -/
def detour (gone dest w : Point × Nat) : Point × Nat := if w = gone then dest else w

theorem detour_gone (gone dest : Point × Nat) : detour gone dest gone = dest := if_pos rfl

theorem detour_of_ne {gone w : Point × Nat} (dest : Point × Nat) (ne : w ≠ gone) :
    detour gone dest w = w := if_neg ne

theorem detour_dest (gone dest : Point × Nat) : detour gone dest dest = dest := ite_id ..

/-- If steps lead past a spot, and the pad is not there, the zone is still reached, unless the walk
came to the zone at that spot. -/
theorem LeadsInto.led {gone dest : Point × Nat} (h : b.LeadsInto pad z)
    (home : ¬ pad.IsAt gone)
    (steps : ∀ w v, b.Along z.net w v →
      ReflTransGen (c.Along z.net) (detour gone dest w) (detour gone dest v)) :
    c.LeadsInto pad z ∨ z.Holds gone ∧
      ∃ x, pad.IsAt x ∧ TransGen (b.Along z.net) x gone ∧ ReflTransGen (c.Along z.net) x dest := by
  obtain ⟨x, y, at_pad, walk, holds⟩ := h
  have away : x ≠ gone := fun e => home (e ▸ at_pad)
  have around : ReflTransGen (c.Along z.net) (detour gone dest x) (detour gone dest y) :=
    ReflTransGen.lift' (detour gone dest) steps x y walk
  rw [detour_of_ne dest away] at around
  by_cases e : y = gone
  · subst e
    rw [detour_gone] at around
    have walked := (Relation.reflTransGen_iff_eq_or_transGen.mp walk).resolve_left (Ne.symm away)
    exact .inr ⟨holds, x, at_pad, walked, around⟩
  · rw [detour_of_ne dest e] at around
    exact .inl ⟨x, y, at_pad, around, holds⟩

/-! ## Tracks that leave -/

/-- A walk is led past a track that goes if spots of other tracks stay, and the spots of the track
are led to spots that hang together without it. -/
theorem along_remove (led : Point × Nat → Point × Nat)
    (still : ∀ n w, n ≠ id → b.Reaches net (.track n) w.1 w.2 → led w = w)
    (own : ∀ w v : Point × Nat, b.Reaches net (.track id) w.1 w.2 →
      b.Reaches net (.track id) v.1 v.2 →
        ReflTransGen ((b.remove id).Along net) (led w) (led v))
    (along : b.Along net x y) : ReflTransGen ((b.remove id).Along net) (led x) (led y) := by
  obtain ⟨n, from_here, to_there⟩ := along
  by_cases e : n = id
  · subst e
    exact own x y from_here to_there
  · have ne : Conductor.track n ≠ .track id := fun same => e (Conductor.track.inj same)
    rw [still n x e from_here, still n y e to_there]
    exact .single ⟨n, (reaches_congr (item?_remove net ne)).mpr from_here,
      (reaches_congr (item?_remove net ne)).mpr to_there⟩

theorem LeadsInto.remove (h : b.LeadsInto pad z)
    (own : ∀ w v : Point × Nat, b.Reaches z.net (.track id) w.1 w.2 →
      b.Reaches z.net (.track id) v.1 v.2 → ReflTransGen ((b.remove id).Along z.net) w v) :
    (b.remove id).LeadsInto pad z :=
  h.along fun _ _ along => along_remove (fun w => w) (fun _ _ _ _ => rfl) own along

theorem LeadsInto.remove_foreign (h : b.LeadsInto pad z) (there : b.track? id = some t)
    (foreign : t.net ≠ z.net) : (b.remove id).LeadsInto pad z := by
  refine h.remove fun w _ reaches _ => ?_
  obtain ⟨t', there', inNet, _⟩ := reaches_track.mp reaches
  cases there.symm.trans there'
  exact absurd inNet foreign

/-- A track without extent leads nowhere. -/
theorem LeadsInto.remove_null (h : b.LeadsInto pad z) (there : b.track? id = some t)
    (null : t.isNull = true) : (b.remove id).LeadsInto pad z := by
  simp only [Track.isNull, Bool.and_eq_true, beq_iff_eq] at null
  obtain ⟨trace, closed⟩ := null
  have one_spot : t.spot .stop = t.spot .start := Prod.ext closed.symm rfl
  have at_start {w : Point × Nat} (reaches : b.Reaches z.net (.track id) w.1 w.2) :
      w = t.spot .start := by
    obtain ⟨_, e | e⟩ := (reaches_spot there (Track.isVia_of_isTrace trace) .start).mp reaches
    · exact e
    · exact e.trans one_spot
  refine h.remove fun w v from_here to_there => ?_
  rw [at_start from_here, at_start to_there]

/-- Another track of the net leads where the track led. -/
theorem LeadsInto.remove_copy (h : b.LeadsInto pad z) (there : b.track? id = some t)
    (thereOther : b.track? other = some u) (ne : other ≠ id) (sameNet : u.net = t.net)
    (ends : u.sameEnds t = true) (layers : u.layers = t.layers) :
    (b.remove id).LeadsInto pad z := by
  have ne' : Conductor.track other ≠ .track id := fun same => ne (Conductor.track.inj same)
  have covered {w : Point × Nat} (reaches : b.Reaches z.net (.track id) w.1 w.2) :
      (b.remove id).Reaches z.net (.track other) w.1 w.2 := by
    obtain ⟨t', there', inNet, endsW, layer⟩ := reaches_track.mp reaches
    cases there.symm.trans there'
    refine (reaches_congr (item?_remove z.net ne')).mpr (reaches_track.mpr ⟨u, thereOther, ?_⟩)
    exact ⟨sameNet.trans inNet, hasEndAt_of_sameEnds ends endsW, layers ▸ layer⟩
  exact h.remove fun w v from_here to_there => .single ⟨other, covered from_here, covered to_there⟩

/-! ## Tracks that dangle -/

/-- An end of a track that no pad and no other track of its net meets, outside all zones of the
net. -/
structure OpenEnd (b : Board) (id : Nat) (t : Track) (side : Side) : Prop where
  padFree : b.PadFree (t.point side) t.layers
  lonely : b.Lonely t.net (t.point side) t.layers [.track id]
  noZone : ∀ z ∈ b.zones, z.net = t.net → z.covers (t.point side) t.layer t.layer = false

/-- Without vias a track that dangles has an open end. -/
theorem exists_openEnd (noVias : b.NoVias) (there : b.track? id = some t)
    (straight : past.StraightVias) {gone : Nat → Prop} (since : Fades gone past b)
    (dangling : dangles Scan.mk past id = true) : ∃ side, b.OpenEnd id t side := by
  have not_via := noVias id t there
  obtain ⟨side, loose⟩ := exists_loose straight (since.was there) dangling
  have low (isVia : t.isVia = true) : ∀ k, t.layers.mask.testBit k = true → k < 32 := by
    rw [not_via] at isVia
    cases isVia
  cases loose.fades low since with
  | free padFree lonely noZone =>
    rw [zoneUnder?, Track.layerPair_of_not_isVia not_via] at noZone
    exact ⟨side, padFree, lonely, zoneAt?_eq_none_iff.mp noZone⟩
  | @atVia v via _ _ _ _ _ dead =>
    have isVia := isThroughVia_isVia dead.through
    rw [noVias v via dead.there] at isVia
    cases isVia

theorem PadFree.not_isAt (free : b.PadFree (t.point side) t.layers) (not_via : t.isVia = false)
    (onBoard : pad ∈ b.pads) : ¬ pad.IsAt (t.spot side) := by
  intro at_pad
  have layer := (Track.testBit_layers_of_not_isVia not_via).mpr rfl
  have hits : pad.hits (t.point side) t.layers = true := Pad.hits_iff.mpr ⟨_, at_pad, layer⟩
  rw [free pad onBoard] at hits
  cases hits

/-- Walks are led past the open end, to the other end of the track. -/
theorem LeadsInto.remove_open (h : b.LeadsInto pad z) (there : b.track? id = some t)
    (not_via : t.isVia = false) (opens : b.OpenEnd id t side) (onBoard : pad ∈ b.pads)
    (zoneOn : z ∈ b.zones) : (b.remove id).LeadsInto pad z := by
  by_cases inNet : t.net = z.net
  · have still (n : Nat) (w : Point × Nat) (ne : n ≠ id)
        (reaches : b.Reaches z.net (.track n) w.1 w.2) :
        detour (t.spot side) (t.spot side.opposite) w = w := by
      refine detour_of_ne _ ?_
      rintro rfl
      have layer := (Track.testBit_layers_of_not_isVia not_via).mpr rfl
      have listed := opens.lonely (.track n) _ layer (inNet ▸ reaches)
      exact ne (Conductor.track.inj (List.mem_singleton.mp listed))
    have leads (w : Point × Nat) (reaches : b.Reaches z.net (.track id) w.1 w.2) :
        detour (t.spot side) (t.spot side.opposite) w = t.spot side.opposite := by
      obtain ⟨_, rfl | rfl⟩ := (reaches_spot there not_via side).mp reaches
      · exact detour_gone _ _
      · exact detour_dest _ _
    have steps (w v : Point × Nat) (along : b.Along z.net w v) :=
      along_remove _ still (fun w v from_here to_there => by
        rw [leads w from_here, leads v to_there]) along
    rcases h.led (opens.padFree.not_isAt not_via onBoard) steps with kept | ⟨holds, _⟩
    · exact kept
    · have covers := Zone.holds_layer.mp holds
      rw [opens.noZone z zoneOn inNet.symm] at covers
      cases covers
  · exact h.remove_foreign there inNet

/-! ## Merges -/

theorem mergedName_track (id other n : Nat) : ∃ m, mergedName id other (.track n) = .track m := by
  unfold mergedName
  split
  · exact ⟨id, rfl⟩
  · exact ⟨n, rfl⟩

/-- Traces of other nets are merged without regard to the walk. -/
theorem LeadsInto.merge_foreign (h : b.LeadsInto pad z) (meet : b.Junction id side other t u)
    (foreign : t.net ≠ z.net) : (b.mergedAt id side other t u).LeadsInto pad z := by
  refine h.along fun w v along => ?_
  obtain ⟨n, from_here, to_there⟩ := along
  obtain ⟨m, name⟩ := mergedName_track id other n
  have still {w : Point × Nat} (reaches : b.Reaches z.net (.track n) w.1 w.2) :
      (b.mergedAt id side other t u).Reaches z.net (.track m) w.1 w.2 := by
    rw [← name]
    exact (reached_after_merge meet reaches).resolve_right fun ⟨inNet, _⟩ => foreign inNet
  exact .single ⟨m, still from_here, still to_there⟩

/-- The trace that a merge leaves. -/
def stretched (t u : Track) (side : Side) : Track :=
  t.setPoint (Run.farEnd u (t.point side)) side

theorem reaches_stretched (meet : b.Junction id side other t u) (inNet : t.net = net)
    (near : Side) :
    (b.mergedAt id side other t u).Reaches net (.track id) ((stretched t u side).spot near).1
      ((stretched t u side).spot near).2 := by
  have live : (b.mergedAt id side other t u).track? id = some (stretched t u side) := by
    rw [track?_mergedAt meet, if_neg meet.ne.symm, if_pos rfl, stretched]
  have not_via : (stretched t u side).isVia = false := by
    rw [Track.isVia, stretched, Track.shape_setPoint]
    exact Track.isVia_of_isTrace meet.isTrace.1
  refine (reaches_spot live not_via near).mpr ⟨?_, .inl rfl⟩
  rw [stretched, Track.net_setPoint, inNet]

/-- What a track reached, its successor reaches, the junction moved to the far end. -/
theorem reaches_detour (meet : b.Junction id side other t u) (inNet : t.net = net)
    (free : b.padsUnder t side = []) {n m : Nat} (name : mergedName id other (.track n) = .track m)
    (reaches : b.Reaches net (.track n) x.1 x.2) :
    (b.mergedAt id side other t u).Reaches net (.track m)
      (detour (t.spot side) ((stretched t u side).spot side) x).1
      (detour (t.spot side) ((stretched t u side).spot side) x).2 := by
  have own {k : Nat} := Track.testBit_layers_of_not_isVia (k := k)
    (Track.isVia_of_isTrace meet.isTrace.1)
  by_cases e : x = t.spot side
  · subst e
    rw [name.symm.trans (at_junction meet inNet free reaches (own.mpr rfl)), detour_gone]
    exact reaches_stretched meet inNet side
  · rw [detour_of_ne _ e, ← name]
    refine (reached_after_merge meet reaches).resolve_right fun ⟨_, _, place, layer⟩ => e ?_
    exact Prod.ext place (own.mp layer).symm

/-- Walks are led past the junction, to the far end of the trace that goes. -/
theorem LeadsInto.merge (h : b.LeadsInto pad z) (noVias : b.NoVias)
    (meet : b.Junction id side other t u) (free : b.padsUnder t side = [])
    (onBoard : pad ∈ b.pads) :
    (b.mergedAt id side other t u).LeadsInto pad z ∨
      t.net = z.net ∧ b.EntersAt pad z (t.point side) t.layer ∧
        z.anchors (stretched t u side) = false := by
  by_cases inNet : t.net = z.net
  · have steps (w v : Point × Nat) (along : b.Along z.net w v) :
        ReflTransGen ((b.mergedAt id side other t u).Along z.net)
          (detour (t.spot side) ((stretched t u side).spot side) w)
          (detour (t.spot side) ((stretched t u side).spot side) v) := by
      obtain ⟨n, from_here, to_there⟩ := along
      obtain ⟨m, name⟩ := mergedName_track id other n
      exact .single ⟨m, reaches_detour meet inNet free name from_here,
        reaches_detour meet inNet free name to_there⟩
    have home := (padsUnder_eq_nil_iff.mp free).not_isAt (Track.isVia_of_isTrace meet.isTrace.1)
      onBoard
    rcases h.led home steps with kept | ⟨holds, x, at_pad, walk, upTo⟩
    · exact .inl kept
    -- The walk came to the zone at the junction, and now comes to the far end.
    · by_cases anchored : z.anchors (stretched t u side) = true
      · obtain ⟨near, holds⟩ := Zone.anchors_iff.mp anchored
        have onward : (b.mergedAt id side other t u).Along z.net
            ((stretched t u side).spot side) ((stretched t u side).spot near) :=
          ⟨id, reaches_stretched meet inNet side, reaches_stretched meet inNet near⟩
        exact .inl ⟨x, _, at_pad, upTo.tail onward, holds⟩
      · have covers := Zone.holds_layer.mp holds
        have enters := (entersAt_iff noVias).mpr ⟨covers, x, at_pad, walk⟩
        exact .inr ⟨inNet, enters, Bool.eq_false_iff.mpr anchored⟩
  · exact .inl (h.merge_foreign meet inNet)

/-! ## Moves -/

theorem Leaves.leadsInto {reason : Reason} (why : Leaves o b id t reason)
    (h : b.LeadsInto pad z) (there : b.track? id = some t) (noVias : b.NoVias)
    (shorts : o.removeMisconnected = false) (onBoard : pad ∈ b.pads) (zoneOn : z ∈ b.zones) :
    (b.remove id).LeadsInto pad z := by
  have not_via := noVias id t there
  have not_through : ¬ t.isThroughVia = true := fun through => by
    rw [isThroughVia_isVia through] at not_via
    cases not_via
  cases why with
  | null _ null => exact h.remove_null there null
  | stacked _ _ _ same =>
    simp only [Track.duplicateVias, Bool.and_eq_true] at same
    exact absurd same.1.2 not_through
  | onPad _ through => exact absurd through not_through
  | @copy first s _ thereS earlier net same =>
    simp only [Track.duplicates, Bool.and_eq_true, beq_iff_eq] at same
    obtain ⟨⟨_, layer⟩, ends⟩ := same
    exact h.remove_copy there thereS (Nat.ne_of_lt earlier) net ends
      (sharesLayer_of_copy layer (noVias first s thereS) not_via)
  | overlapped _ meet same =>
    exact h.remove_copy there meet.there meet.ne.symm meet.net.symm same meet.layers.symm
  | short on =>
    rw [shorts] at on
    cases on
  | loose _ straight since dangling =>
    obtain ⟨side, opens⟩ := exists_openEnd noVias there straight since dangling
    exact h.remove_open there not_via opens onBoard zoneOn

theorem Move.leadsInto (move : Move o b cs c) (h : b.LeadsInto pad z) (noVias : b.NoVias)
    (shorts : o.removeMisconnected = false) (onBoard : pad ∈ b.pads) (zoneOn : z ∈ b.zones) :
    c.LeadsInto pad z ∨ o.mergeSegments = true ∧ b.LosesEntry cs pad z := by
  cases move with
  | mend there bad =>
    rw [Run.isMalformedVia, noVias _ _ there] at bad
    cases bad
  | leave there why => exact .inl (why.leadsInto h there noVias shorts onBoard zoneOn)
  | @merge id other t u side on meet _ _ free =>
    rcases h.merge noVias meet free onBoard with kept | ⟨inNet, enters, away⟩
    · exact .inl kept
    · refine .inr ⟨on, id, t, _, t.point side, List.mem_cons_self, inNet, ?_, enters, away⟩
      exact (Track.hasEndAt_iff_side side).mpr (.inl rfl)

theorem Moves.leadsInto (moves : Moves o b cs c) (h : b.LeadsInto pad z) (noVias : b.NoVias)
    (shorts : o.removeMisconnected = false) (onBoard : pad ∈ b.pads) (zoneOn : z ∈ b.zones) :
    c.LeadsInto pad z ∨ o.mergeSegments = true ∧ b.LosesEntry cs pad z := by
  induction moves with
  | nil => exact .inl h
  | snoc before last ih =>
    obtain ⟨pads, zones⟩ := before.pads_zones
    have noViasMid := stable_noVias.moves before noVias
    rcases ih with mid | ⟨on, id, t, t', p, logged, facts⟩
    · rcases last.leadsInto mid noViasMid shorts (pads ▸ onBoard) (zones ▸ zoneOn) with
        kept | ⟨on, id, t, t', p, logged, inNet, ends, enters, away⟩
      · exact .inl kept
      -- Where a chain entered just before the last move, one entered before the first.
      · exact .inr ⟨on, id, t, t', p, List.mem_append_right _ logged, inNet, ends,
          before.was_entered noVias enters, away⟩
    · exact .inr ⟨on, id, t, t', p, List.mem_append_left _ logged, facts⟩

/-! ## A whole cleaning -/

/-- On a board of traces and arcs, a cleaning that leaves shorts alone makes no new connection to a
zone, and keeps one unless the pad lies in the zone itself or a merge took an end out of it. -/
theorem clean_reachesZone (b : Board) (o : Options) (pad : Pad) (z : Zone) (noVias : b.NoVias)
    (shorts : o.removeMisconnected = false) (onBoard : pad ∈ b.pads) (zoneOn : z ∈ b.zones) :
    ((b.clean o).board.ReachesZone pad z → b.ReachesZone pad z) ∧
      (b.ReachesZone pad z →
        (b.clean o).board.ReachesZone pad z ∨ pad.LiesIn z ∨
          o.mergeSegments = true ∧ b.LosesEntry (b.clean o).changes pad z) := by
  have moves := b.clean_moves o
  constructor
  · rintro ⟨inNet, p, l, enters⟩
    exact ⟨inNet, p, l, moves.was_entered noVias enters⟩
  · intro reaches
    rcases moves.leadsInto (reaches.leadsInto noVias) noVias shorts onBoard zoneOn with kept | lost
    · have noViasAfter := stable_noVias.moves moves noVias
      rcases kept.reachesZone noViasAfter reaches.1 with still | lies
      · exact .inl still
      · exact .inr (.inl lies)
    · exact .inr (.inr lost)

/-- A square zone of net 1 on the front. -/
def squareZone (x : Int64) : Zone :=
  ⟨1, [⟨.front, [⟨x - 5, -5⟩, ⟨x + 5, -5⟩, ⟨x + 5, 5⟩, ⟨x - 5, 5⟩]⟩]⟩

def firstPad : Pad := ⟨"U1", "1", ⟨0, 0⟩, 1, .single .front, .smd⟩

/-- Two traces in a line between two pads, and a zone somewhere on the line. -/
def tapped (x : Int64) : Board :=
  { slots := [some ⟨"a", ⟨0, 0⟩, ⟨10, 0⟩, 200, .front, 1, .trace⟩,
      some ⟨"b", ⟨10, 0⟩, ⟨20, 0⟩, 200, .front, 1, .trace⟩]
    pads := [firstPad, ⟨"U1", "2", ⟨20, 0⟩, 1, .single .front, .smd⟩]
    zones := [squareZone x] }

theorem tapped_noVias (x : Int64) : (tapped x).NoVias :=
  have none_is_via : ∀ entry ∈ (tapped 0).tracks, entry.2.isVia = false := by decide
  forall_track?_iff.mpr none_is_via

theorem tapped_chain (x : Int64) (id : Nat) (low : id < 2) :
    (tapped x).ChainFrom firstPad 1 id := by
  have first : (tapped x).ChainFrom firstPad 1 0 := .first (t := _) rfl rfl (by decide)
  match id, low with
  | 0, _ => exact first
  | 1, _ => exact .next first rfl rfl rfl (by decide)

theorem clean_reachesZone_tapped :
    let c := (tapped 20).clean { removeMisconnected := false }
    (tapped 20).NoVias ∧ (tapped 20).ReachesZone firstPad (squareZone 20) ∧
      c.board.ReachesZone firstPad (squareZone 20) := by
  have chain := tapped_chain 20 1 (by decide)
  have before : (tapped 20).ReachesZone firstPad (squareZone 20) :=
    ⟨rfl, ⟨20, 0⟩, .front, 1, _, chain, rfl, by decide, rfl, by decide +kernel⟩
  have kept := (clean_reachesZone (tapped 20) { removeMisconnected := false } firstPad
    (squareZone 20) (tapped_noVias 20) rfl (by decide) (by decide)).2 before
  refine ⟨tapped_noVias 20, before, kept.resolve_right ?_⟩
  rintro (⟨_, l, own, covers⟩ | ⟨_, id, t, t', p, logged, _, _, _, away⟩)
  · rw [firstPad, LayerSet.contains_single, decide_eq_true_eq] at own
    subst own
    exact absurd covers (by decide +kernel)
  · have changes : ((tapped 20).clean { removeMisconnected := false }).changes =
        [.modified 0 ⟨"a", ⟨0, 0⟩, ⟨10, 0⟩, 200, .front, 1, .trace⟩
            ⟨"a", ⟨0, 0⟩, ⟨20, 0⟩, 200, .front, 1, .trace⟩,
          .removed 1 ⟨"b", ⟨10, 0⟩, ⟨20, 0⟩, 200, .front, 1, .trace⟩ .mergedCollinear] := by
      decide +kernel
    simp only [changes, List.mem_cons, Change.modified.injEq, reduceCtorEq, List.not_mem_nil,
      or_false] at logged
    obtain ⟨rfl, rfl, rfl⟩ := logged
    exact absurd away (by decide +kernel)

/-- The merge takes the only end out of the zone. -/
theorem clean_leaves_zone :
    ¬ ∀ (b : Board) (o : Options) (pad : Pad) (z : Zone), b.NoVias → o.removeMisconnected = false →
      pad ∈ b.pads → z ∈ b.zones → b.ReachesZone pad z → (b.clean o).board.ReachesZone pad z := by
  intro all
  have chain := tapped_chain 10 0 (by decide)
  have before : (tapped 10).ReachesZone firstPad (squareZone 10) :=
    ⟨rfl, ⟨10, 0⟩, .front, 0, _, chain, rfl, by decide, rfl, by decide +kernel⟩
  obtain ⟨_, p, l, id, t, _, there, ends, rfl, covers⟩ := all (tapped 10)
    { removeMisconnected := false } firstPad (squareZone 10) (tapped_noVias 10) rfl (by decide)
    (by decide) before
  have outside : ∀ id t, ((tapped 10).clean { removeMisconnected := false }).board.track? id =
      some t → (squareZone 10).anchors t = false := forall_track?_iff.mpr (by decide +kernel)
  have anchored : (squareZone 10).anchors t = true := by
    rw [Zone.anchors, Bool.or_eq_true]
    rcases Track.hasEndAt_iff.mp ends with rfl | rfl
    · exact .inl covers
    · exact .inr covers
  rw [outside id t there] at anchored
  cases anchored

end CopperTidy.Board
