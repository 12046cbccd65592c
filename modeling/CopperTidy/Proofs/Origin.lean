import CopperTidy.Copper.Lemmas
import CopperTidy.Proofs.Moves

/-! # Where tracks come from

A track of a board after a move was there before, or was a malformed via, or was the first of two
traces that became one. Either way its ends were ends of tracks of the same net and layers before,
so no move brings back a malformed via, a needless through via, a null trace or a contact between
nets.
-/

namespace CopperTidy
set_option autoImplicit false

namespace Track

theorem farEnd_of_hasEndAt {u : Track} {near : Point} (h : u.hasEndAt near = true) :
    (u.start = near ∧ Run.farEnd u near = u.stop) ∨ (u.stop = near ∧ Run.farEnd u near = u.start) := by
  unfold Run.farEnd
  by_cases e : u.start = near
  · exact .inl ⟨e, if_pos e⟩
  · rcases hasEndAt_iff.mp h with first | last
    · exact absurd first e
    · exact .inr ⟨last, if_neg e⟩

theorem stop_eq_start {t : Track} (straight : Run.isMalformedVia t = false)
    (via : t.isVia = true) : t.stop = t.start := by
  rw [Run.isMalformedVia, via, Bool.true_and, bne_eq_false_iff_eq] at straight
  exact straight.symm

/-- A straight via has one end. -/
theorem hasEndAt_via {t : Track} (straight : Run.isMalformedVia t = false) (via : t.isVia = true)
    {p : Point} : t.hasEndAt p = true ↔ t.start = p := by
  rw [hasEndAt_iff, stop_eq_start straight via, or_self_iff]

theorem point_via {t : Track} (straight : Run.isMalformedVia t = false) (via : t.isVia = true)
    (side : Side) : t.point side = t.start := by
  cases side with
  | start => rfl
  | stop => exact stop_eq_start straight via

/-- A trace with both ends in one place is a null trace. -/
theorem isNull_of_closed {t : Track} {side : Side} (trace : t.isTrace = true)
    (closed : t.point side = t.point side.opposite) : t.isNull = true := by
  rw [isNull, trace, Bool.true_and, beq_iff_eq]
  cases side with
  | start => exact closed
  | stop => exact closed.symm

end Track

namespace Board

/-! ## Where a track comes from -/

/-- What a track of the board after a move was before it. -/
inductive Origin (b : Board) (id : Nat) : Track → Prop
  | kept {t : Track} (there : b.track? id = some t) : Origin b id t
  | mended {t : Track} (there : b.track? id = some t) (bad : Run.isMalformedVia t = true) :
      Origin b id { t with stop := t.start }
  | stretched {side : Side} {other : Nat} {t u : Track} (meet : b.Junction id side other t u)
      (ends : t.sameEnds u = false) :
      Origin b id (t.setPoint (Run.farEnd u (t.point side)) side)

theorem Move.origin {o : Options} {b c : Board} {cs : List Change} (h : Move o b cs c) {id : Nat}
    {t : Track} (live : c.track? id = some t) : b.Origin id t := by
  cases h with
  | @mend id' t' there bad =>
    rw [track?_modify] at live
    split at live
    · next e =>
      subst e
      rw [there] at live
      cases live
      exact .mended there bad
    · exact .kept live
  | leave => exact .kept (track?_of_remove live).2
  | merge _ meet ends =>
    obtain ⟨_, live⟩ := track?_of_remove live
    rw [track?_modify] at live
    split at live
    · next e =>
      subst e
      rw [meet.there] at live
      cases live
      exact .stretched meet ends
    · exact .kept live

theorem Junction.layer {b : Board} {id other : Nat} {side : Side} {t u : Track}
    (h : b.Junction id side other t u) : u.layer = t.layer := by
  obtain ⟨first, second⟩ := h.isTrace
  have shares := h.facts.2.2.1
  rwa [Track.sharesLayer, Track.layers_of_isTrace first, Track.layers_of_isTrace second,
    LayerSet.intersects_single] at shares

theorem Junction.layers {b : Board} {id other : Nat} {side : Side} {t u : Track}
    (h : b.Junction id side other t u) : u.layers = t.layers := by
  rw [Track.layers_of_isTrace h.isTrace.1, Track.layers_of_isTrace h.isTrace.2, h.layer]

/-- The two traces of a junction have the same ends if the far end of one is that of the other. -/
theorem Junction.sameEnds_of_far {b : Board} {id other : Nat} {side : Side} {t u : Track}
    (h : b.Junction id side other t u)
    (closed : Run.farEnd u (t.point side) = t.point side.opposite) : t.sameEnds u = true := by
  simp only [Track.sameEnds, Bool.or_eq_true, Bool.and_eq_true, beq_iff_eq]
  rcases Track.farEnd_of_hasEndAt h.endsThere with ⟨near, far⟩ | ⟨near, far⟩
  · rw [far] at closed
    cases side with
    | start => exact .inl ⟨near.symm, closed.symm⟩
    | stop => exact .inr ⟨closed.symm, near.symm⟩
  · rw [far] at closed
    cases side with
    | start => exact .inr ⟨near.symm, closed.symm⟩
    | stop => exact .inl ⟨closed.symm, near.symm⟩

theorem Junction.ne_far {b : Board} {id other : Nat} {side : Side} {t u : Track}
    (h : b.Junction id side other t u) (ends : t.sameEnds u = false) :
    Run.farEnd u (t.point side) ≠ t.point side.opposite := by
  intro closed
  rw [h.sameEnds_of_far closed] at ends
  cases ends

theorem Junction.exists_far {b : Board} {id other : Nat} {side : Side} {t u : Track}
    (h : b.Junction id side other t u) :
    ∃ far : Side, u.point far = Run.farEnd u (t.point side) ∧
      u.point far.opposite = t.point side := by
  rcases Track.farEnd_of_hasEndAt h.endsThere with ⟨near, far⟩ | ⟨near, far⟩
  · exact ⟨.stop, far.symm, near⟩
  · exact ⟨.start, far.symm, near⟩

/-- Every end of a track was an end already, of the same net and on the same layers: of the track
itself, or of the one that it was merged with. -/
theorem Origin.end_was {b : Board} {id : Nat} {t : Track} (h : b.Origin id t) {p : Point}
    (there : t.hasEndAt p = true) :
    ∃ id' t', b.track? id' = some t' ∧ t'.hasEndAt p = true ∧ t'.net = t.net ∧
      t'.layers = t.layers ∧ (id' = id ∨ ∃ side t₀, b.Junction id side id' t₀ t') := by
  cases h with
  | kept live => exact ⟨id, t, live, there, rfl, rfl, .inl rfl⟩
  | @mended t live =>
    refine ⟨id, t, live, ?_, rfl, rfl, .inl rfl⟩
    rw [Track.hasEndAt_iff] at there ⊢
    exact .inl (or_self_iff.mp there)
  | @stretched side other t u meet =>
    rw [Track.hasEndAt_iff_side side, Track.point_setPoint, Track.point_opposite_setPoint] at there
    rcases there with far | kept
    · refine ⟨other, u, meet.thereOther, ?_, ?_, ?_, .inr ⟨side, t, meet⟩⟩
      · rw [Track.hasEndAt_iff]
        rcases Track.farEnd_of_hasEndAt meet.endsThere with ⟨_, e⟩ | ⟨_, e⟩
        · exact .inr (e ▸ far)
        · exact .inl (e ▸ far)
      · rw [Track.net_setPoint]
        exact meet.net
      · rw [Track.layers_setPoint]
        exact meet.layers
    · refine ⟨id, t, meet.there, ?_, ?_, ?_, .inl rfl⟩
      · exact (Track.hasEndAt_iff_side side).mpr (.inr kept)
      · exact (Track.net_setPoint _ _ _).symm
      · exact (Track.layers_setPoint _ _ _).symm

/-- A via was the same via before, unless it has just been mended. -/
theorem Origin.via_was {b : Board} {id : Nat} {t : Track} (h : b.Origin id t)
    (via : t.isVia = true) :
    ∃ t', b.track? id = some t' ∧
      (t = t' ∨ Run.isMalformedVia t' = true ∧ t = { t' with stop := t'.start }) := by
  cases h with
  | kept live => exact ⟨t, live, .inl rfl⟩
  | @mended t live bad => exact ⟨t, live, .inr ⟨bad, rfl⟩⟩
  | stretched meet =>
    have trace := Track.isTrace_of_isVia via
    rw [Track.isTrace_setPoint, meet.isTrace.1] at trace
    cases trace

/-- A straight via stays what it is. -/
theorem Origin.via_stays {b : Board} {id : Nat} {t u : Track} (h : b.Origin id u)
    (there : b.track? id = some t) (via : t.isVia = true)
    (straight : Run.isMalformedVia t = false) : u = t := by
  cases h with
  | kept there' => exact Option.some.inj (there'.symm.trans there)
  | mended there' bad =>
    rw [there] at there'
    cases there'
    rw [straight] at bad
    cases bad
  | stretched meet =>
    have same := meet.there.symm.trans there
    cases same
    have trace := meet.isTrace.1
    rw [Track.isTrace_of_isVia via] at trace
    cases trace

/-! ## What no move brings back -/

/-- Through vias stand alone. -/
def LoneVias (b : Board) : Prop :=
  ∀ i j s t, b.track? i = some s → b.track? j = some t → s.duplicateVias t = true → i = j

/-- No through via is on a pad through all layers. -/
def ClearVias (b : Board) : Prop :=
  ∀ id t, b.track? id = some t → t.isThroughVia = true →
    ∀ pad ∈ b.pads, pad.onAllCopper = true → pad.meets t = false

def NoNull (b : Board) : Prop := ∀ id t, b.track? id = some t → t.isNull = false

/-- Whatever touches is of one net. -/
structure NoShort (b : Board) : Prop where
  pads : ∀ id t, b.track? id = some t → ∀ pad ∈ b.pads, pad.meets t = true → pad.net = t.net
  tracks : ∀ i j s t, b.track? i = some s → b.track? j = some t → s.touches t = true →
    s.net = t.net

/-- No move can make the property fail. -/
def Stable (P : Board → Prop) : Prop :=
  ∀ {o : Options} {b c : Board} {cs : List Change}, Move o b cs c → P b → P c

theorem Stable.moves {P : Board → Prop} (stable : Stable P) {o : Options} {b c : Board}
    {cs : List Change} (h : Moves o b cs c) (holds : P b) : P c := by
  induction h with
  | nil => exact holds
  | snoc _ last ih => exact stable last ih

theorem isThroughVia_isVia {t : Track} (h : t.isThroughVia = true) : t.isVia = true := by
  unfold Track.isThroughVia at h
  unfold Track.isVia
  split at h
  · simp
  · cases h

theorem stable_straightVias : Stable StraightVias := by
  intro o b c cs move straight id t live
  cases move.origin live with
  | kept there => exact straight id t there
  | mended => simp [Run.isMalformedVia]
  | @stretched side other t u meet =>
    have trace : (t.setPoint (Run.farEnd u (t.point side)) side).isTrace = true :=
      (Track.isTrace_setPoint t _ side).trans meet.isTrace.1
    rw [Run.isMalformedVia, Track.isVia_of_isTrace trace]
    rfl

theorem stable_loneVias : Stable LoneVias := by
  intro o b c cs move lone i j s t hi hj same
  simp only [Track.duplicateVias, Bool.and_eq_true, beq_iff_eq] at same
  obtain ⟨⟨through, through'⟩, place⟩ := same
  obtain ⟨s', hs, wasS⟩ := (move.origin hi).via_was (isThroughVia_isVia through)
  obtain ⟨t', ht, wasT⟩ := (move.origin hj).via_was (isThroughVia_isVia through')
  have placeS : s'.start = s.start ∧ s'.isThroughVia = s.isThroughVia := by
    rcases wasS with rfl | ⟨_, rfl⟩ <;> exact ⟨rfl, rfl⟩
  have placeT : t'.start = t.start ∧ t'.isThroughVia = t.isThroughVia := by
    rcases wasT with rfl | ⟨_, rfl⟩ <;> exact ⟨rfl, rfl⟩
  refine lone i j s' t' hs ht ?_
  rw [Track.duplicateVias, placeS.2, placeT.2, through, through', placeS.1, placeT.1, place]
  simp

theorem stable_clearVias : Stable ClearVias := by
  intro o b c cs move clear id t live through pad mem copper
  rw [move.pads_zones.1] at mem
  obtain ⟨t', there, was⟩ := (move.origin live).via_was (isThroughVia_isVia through)
  rcases was with rfl | ⟨_, rfl⟩
  · exact clear id t there through pad mem copper
  · have before := clear id t' there through pad mem copper
    simp only [Pad.meets, Bool.or_eq_false_iff] at before ⊢
    exact ⟨before.1, before.1⟩

/-- The two traces of a junction would have the same ends if they gave a null trace. -/
theorem stable_noNull : Stable NoNull := by
  intro o b c cs move none_null id t live
  cases move.origin live with
  | kept there => exact none_null id t there
  | @mended t there bad =>
    have via : ({ t with stop := t.start } : Track).isVia = true := (Bool.and_eq_true_iff.mp bad).1
    rw [Track.isNull, Track.isTrace_of_isVia via]
    rfl
  | @stretched side other t u meet ends =>
    rw [Bool.eq_false_iff] at ends ⊢
    intro null
    simp only [Track.isNull, Bool.and_eq_true, beq_iff_eq] at null
    have closed : Run.farEnd u (t.point side) = t.point side.opposite := by
      cases side with
      | start => exact null.2
      | stop => exact null.2.symm
    exact ends (meet.sameEnds_of_far closed)

theorem stable_noShort : Stable NoShort := by
  intro o b c cs move pure
  constructor
  · intro id t live pad mem meets
    rw [move.pads_zones.1] at mem
    obtain ⟨p, there, hits⟩ := Pad.meets_iff.mp meets
    obtain ⟨id', t', live', there', net, layers, _⟩ := (move.origin live).end_was there
    rw [← net]
    exact pure.pads id' t' live' pad mem (Pad.meets_iff.mpr ⟨p, there', layers ▸ hits⟩)
  · intro i j s t hs ht touches
    obtain ⟨p, sThere, tThere, layer⟩ := Track.touches_iff.mp touches
    obtain ⟨i', s', hs', sThere', sNet, sLayers, _⟩ := (move.origin hs).end_was sThere
    obtain ⟨j', t', ht', tThere', tNet, tLayers, _⟩ := (move.origin ht).end_was tThere
    rw [← sNet, ← tNet]
    refine pure.tracks i' j' s' t' hs' ht' (Track.touches_iff.mpr ⟨p, sThere', tThere', ?_⟩)
    rw [Track.sharesLayer, sLayers, tLayers]
    exact layer

end Board

end CopperTidy
