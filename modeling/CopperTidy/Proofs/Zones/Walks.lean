import CopperTidy.Board.ZoneConnection
import CopperTidy.Proofs.Islands.Sound

/-! # Walks to a zone

On a board without vias a chain of tracks is a walk from spot to spot, each a point on one layer,
and each step goes along a track. No move lets a walk come to a spot that it did not come to before:
what a track reaches after the move was reached along the two traces that it was made of.
-/

namespace CopperTidy
set_option autoImplicit false
open Relation (TransGen ReflTransGen)

/-- A spot of the pad itself: its position, on one of its layers. -/
def Pad.IsAt (pad : Pad) (x : Point × Nat) : Prop :=
  pad.kind ≠ .nonPlated ∧ pad.position = x.1 ∧ pad.layers.mask.testBit x.2 = true

/-- The spot of an end of a track, on its layer. -/
def Track.spot (t : Track) (side : Side) : Point × Nat := (t.point side, t.layer.number.toNat)

/-- A spot in the copper of the zone. -/
def Zone.Holds (z : Zone) (x : Point × Nat) : Prop :=
  ∃ l : Layer, l.number.toNat = x.2 ∧ z.covers x.1 l l = true

theorem Zone.holds_layer {z : Zone} {p : Point} {l : Layer} :
    z.Holds (p, l.number.toNat) ↔ z.covers p l l = true := by
  constructor
  · rintro ⟨k, same, covers⟩
    rwa [Layer.eq_of_number same] at covers
  · exact fun covers => ⟨l, rfl, covers⟩

theorem Zone.anchors_iff {z : Zone} {t : Track} :
    z.anchors t = true ↔ ∃ side, z.Holds (t.spot side) := by
  simp only [Zone.anchors, Bool.or_eq_true, Track.spot, Zone.holds_layer]
  constructor
  · rintro (first | last)
    · exact ⟨.start, first⟩
    · exact ⟨.stop, last⟩
  · rintro ⟨side, covers⟩
    cases side with
    | start => exact .inl covers
    | stop => exact .inr covers

namespace Board

variable {b c : Board} {o : Options} {net : UInt32} {pad : Pad} {z : Zone} {id other : Nat}
  {side : Side} {t u : Track} {x y : Point × Nat} {cs : List Change}

/-- All tracks are traces and arcs. -/
def NoVias (b : Board) : Prop := ∀ id t, b.track? id = some t → t.isVia = false

theorem stable_noVias : Stable NoVias := by
  intro o b c cs move noVias id t live
  cases move.origin live with
  | kept there => exact noVias id t there
  | mended there =>
    have was := noVias _ _ there
    exact was
  | stretched meet =>
    rw [Track.isVia, Track.shape_setPoint]
    exact Track.isVia_of_isTrace meet.isTrace.1

/-- A track that is no via reaches the spots of its two ends. -/
theorem reaches_spot (there : b.track? id = some t) (not_via : t.isVia = false) (side : Side) :
    b.Reaches net (.track id) x.1 x.2 ↔
      t.net = net ∧ (x = t.spot side ∨ x = t.spot side.opposite) := by
  have spot (s : Side) : x = t.spot s ↔ t.point s = x.1 ∧ t.layer.number.toNat = x.2 := by
    rw [Track.spot, Prod.ext_iff]
    exact and_congr eq_comm eq_comm
  rw [reaches_track, spot, spot, ← or_and_right, ← Track.hasEndAt_iff_side side,
    ← Track.testBit_layers_of_not_isVia not_via]
  constructor
  · rintro ⟨t', there', facts⟩
    cases there.symm.trans there'
    exact facts
  · exact fun facts => ⟨t, there, facts⟩

/-- A track of the net leads from one spot to another. -/
def Along (b : Board) (net : UInt32) (x y : Point × Nat) : Prop :=
  ∃ id, b.Reaches net (.track id) x.1 x.2 ∧ b.Reaches net (.track id) y.1 y.2

/-- Where tracks of the zone's net lead to from the pad, there is copper of the zone. -/
def LeadsInto (b : Board) (pad : Pad) (z : Zone) : Prop :=
  ∃ x y, pad.IsAt x ∧ ReflTransGen (b.Along z.net) x y ∧ z.Holds y

/-! ## Chains are walks -/

theorem walk_of_chain (h : b.ChainFrom pad net id) :
    ∃ x, pad.IsAt x ∧
      ∀ y : Point × Nat, b.Reaches net (.track id) y.1 y.2 → TransGen (b.Along net) x y := by
  induction h with
  | @first id t there inNet meets =>
    obtain ⟨p, ends, hits⟩ := Pad.meets_iff.mp meets
    obtain ⟨k, at_pad, layer⟩ := Pad.hits_iff.mp hits
    have here : b.Reaches net (.track id) p k := reaches_track.mpr ⟨t, there, inNet, ends, layer⟩
    exact ⟨(p, k), at_pad, fun y reaches => .single ⟨id, here, reaches⟩⟩
  | @next id last t u before there thereLast inNet touches ih =>
    obtain ⟨x, at_pad, walk⟩ := ih
    obtain ⟨t', there', inNet'⟩ := before.live
    cases there.symm.trans there'
    obtain ⟨p, ends, endsLast, shares⟩ := Track.touches_iff.mp touches
    obtain ⟨k, layer, layerLast⟩ := LayerSet.intersects_iff.mp shares
    have upTo : TransGen (b.Along net) x (p, k) :=
      walk (p, k) (reaches_track.mpr ⟨t, there, inNet', ends, layer⟩)
    have from_here : b.Reaches net (.track last) p k :=
      reaches_track.mpr ⟨u, thereLast, inNet, endsLast, layerLast⟩
    exact ⟨x, at_pad, fun y reaches => upTo.tail ⟨last, from_here, reaches⟩⟩

theorem chain_of_walk (at_pad : pad.IsAt x) (walk : TransGen (b.Along net) x y) :
    ∃ id, b.ChainFrom pad net id ∧ b.Reaches net (.track id) y.1 y.2 := by
  induction walk with
  | single first =>
    obtain ⟨id, from_here, reaches⟩ := first
    obtain ⟨t, there, inNet, ends, layer⟩ := reaches_track.mp from_here
    have hits := Pad.hits_iff.mpr ⟨_, at_pad, layer⟩
    exact ⟨id, .first there inNet (Pad.meets_iff.mpr ⟨_, ends, hits⟩), reaches⟩
  | tail _ last ih =>
    obtain ⟨id, chain, upTo⟩ := ih
    obtain ⟨next, from_here, reaches⟩ := last
    obtain ⟨t, there, _, ends, layer⟩ := reaches_track.mp upTo
    obtain ⟨u, thereNext, inNet, endsNext, layerNext⟩ := reaches_track.mp from_here
    have shares := LayerSet.intersects_iff.mpr ⟨_, layer, layerNext⟩
    have touches := Track.touches_iff.mpr ⟨_, ends, endsNext, shares⟩
    exact ⟨next, .next chain there thereNext inNet touches, reaches⟩

theorem entersAt_iff (noVias : b.NoVias) {p : Point} {l : Layer} :
    b.EntersAt pad z p l ↔
      z.covers p l l = true ∧
        ∃ x, pad.IsAt x ∧ TransGen (b.Along z.net) x (p, l.number.toNat) := by
  constructor
  · rintro ⟨id, t, chain, there, ends, rfl, covers⟩
    obtain ⟨x, at_pad, walk⟩ := walk_of_chain chain
    obtain ⟨t', there', inNet⟩ := chain.live
    cases there.symm.trans there'
    have layer := (Track.testBit_layers_of_not_isVia (noVias id t there)).mpr rfl
    exact ⟨covers, x, at_pad, walk (p, _) (reaches_track.mpr ⟨t, there, inNet, ends, layer⟩)⟩
  · rintro ⟨covers, x, at_pad, walk⟩
    obtain ⟨id, chain, reaches⟩ := chain_of_walk at_pad walk
    obtain ⟨t, there, _, ends, layer⟩ := reaches_track.mp reaches
    have same := (Track.testBit_layers_of_not_isVia (noVias id t there)).mp layer
    exact ⟨id, t, chain, there, ends, Layer.eq_of_number same, covers⟩

theorem ReachesZone.leadsInto (noVias : b.NoVias) (h : b.ReachesZone pad z) :
    b.LeadsInto pad z := by
  obtain ⟨_, p, l, enters⟩ := h
  obtain ⟨covers, x, at_pad, walk⟩ := (entersAt_iff noVias).mp enters
  exact ⟨x, (p, l.number.toNat), at_pad, walk.to_reflTransGen, Zone.holds_layer.mpr covers⟩

/-- Either some track leads there, or the pad is there itself. -/
theorem LeadsInto.reachesZone (noVias : b.NoVias) (inNet : pad.net = z.net)
    (h : b.LeadsInto pad z) : b.ReachesZone pad z ∨ pad.LiesIn z := by
  obtain ⟨x, y, at_pad, walk, l, layer, covers⟩ := h
  rcases Relation.reflTransGen_iff_eq_or_transGen.mp walk with rfl | walk
  · obtain ⟨plated, place, own⟩ := at_pad
    refine .inr ⟨plated, l, ?_, place ▸ covers⟩
    rw [LayerSet.contains, layer]
    exact own
  · refine .inl ⟨inNet, y.1, l, (entersAt_iff noVias).mpr ⟨covers, x, at_pad, ?_⟩⟩
    rw [layer]
    exact walk

/-! ## No move leads further -/

/-- Each end of the trace that a merge makes is joined to the junction, by one of the two. -/
theorem Junction.reaches_near (meet : b.Junction id side other t u) (inNet : t.net = net)
    {p : Point} {k m : Nat} (ends : Run.farEnd u (t.point side) = p ∨ t.point side.opposite = p)
    (layer : t.layers.mask.testBit k = true) (layer' : t.layers.mask.testBit m = true) :
    ∃ n, b.Reaches net (.track n) p k ∧ b.Reaches net (.track n) (t.point side) m := by
  have own {q : Point} {l : Nat} (ends : t.hasEndAt q = true)
      (layer : t.layers.mask.testBit l = true) : b.Reaches net (.track id) q l :=
    reaches_track.mpr ⟨t, meet.there, inNet, ends, layer⟩
  have others {q : Point} {l : Nat} (ends : u.hasEndAt q = true)
      (layer : t.layers.mask.testBit l = true) : b.Reaches net (.track other) q l :=
    reaches_track.mpr ⟨u, meet.thereOther, meet.net.trans inNet, ends, meet.layers ▸ layer⟩
  rcases ends with rfl | rfl
  · have far : u.hasEndAt (Run.farEnd u (t.point side)) = true := by
      rw [Track.hasEndAt_iff]
      rcases Track.farEnd_of_hasEndAt meet.endsThere with ⟨_, far⟩ | ⟨_, far⟩
      · exact .inr far.symm
      · exact .inl far.symm
    exact ⟨other, others far layer, others meet.endsThere layer'⟩
  · have near := (Track.hasEndAt_iff_side (t := t) side).mpr (.inl rfl)
    have opposite := (Track.hasEndAt_iff_side (t := t) side).mpr (.inr rfl)
    exact ⟨id, own opposite layer, own near layer'⟩

theorem Along.single_of_mended (there : b.track? id = some t) (inNet : t.net = net)
    (endsX : ({ t with stop := t.start } : Track).hasEndAt x.1 = true)
    (endsY : ({ t with stop := t.start } : Track).hasEndAt y.1 = true)
    (layerX : t.layers.mask.testBit x.2 = true) (layerY : t.layers.mask.testBit y.2 = true) :
    b.Along net x y := by
  rw [Track.hasEndAt_iff, or_self_iff] at endsX endsY
  exact ⟨id, reaches_track.mpr ⟨t, there, inNet, Track.hasEndAt_iff.mpr (.inl endsX), layerX⟩,
    reaches_track.mpr ⟨t, there, inNet, Track.hasEndAt_iff.mpr (.inl endsY), layerY⟩⟩

/-- Where a track leads after a move, tracks led before: along the two that it was made of. -/
theorem Move.was_along (move : Move o b cs c) (h : c.Along net x y) :
    TransGen (b.Along net) x y := by
  obtain ⟨id, from_here, to_there⟩ := h
  obtain ⟨t, live, inNet, endsX, layerX⟩ := reaches_track.mp from_here
  obtain ⟨t', live', _, endsY, layerY⟩ := reaches_track.mp to_there
  cases live.symm.trans live'
  cases move.origin live with
  | kept there =>
    exact .single ⟨id, reaches_track.mpr ⟨t, there, inNet, endsX, layerX⟩,
      reaches_track.mpr ⟨t, there, inNet, endsY, layerY⟩⟩
  | mended there => exact .single (.single_of_mended there inNet endsX endsY layerX layerY)
  | @stretched side other t u meet =>
    rw [Track.net_setPoint] at inNet
    rw [Track.layers_setPoint] at layerX layerY
    rw [Track.hasEndAt_iff_side side, Track.point_setPoint, Track.point_opposite_setPoint]
      at endsX endsY
    obtain ⟨n, here, near⟩ := meet.reaches_near inNet endsX layerX layerX
    obtain ⟨m, there, near'⟩ := meet.reaches_near inNet endsY layerY layerX
    exact .tail (.single (b := (t.point side, x.2)) ⟨n, here, near⟩) ⟨m, near', there⟩

theorem Moves.was_walk (moves : Moves o b cs c) (walk : TransGen (c.Along net) x y) :
    TransGen (b.Along net) x y := by
  induction moves generalizing x y with
  | nil => exact walk
  | snoc _ last ih =>
    exact ih (TransGen.closed (fun _ _ along => last.was_along along) _ _ walk)

theorem Moves.was_entered (moves : Moves o b cs c) (noVias : b.NoVias) {p : Point} {l : Layer}
    (h : c.EntersAt pad z p l) : b.EntersAt pad z p l := by
  obtain ⟨covers, x, at_pad, walk⟩ := (entersAt_iff (stable_noVias.moves moves noVias)).mp h
  exact (entersAt_iff noVias).mpr ⟨covers, x, at_pad, moves.was_walk walk⟩

end Board
end CopperTidy
