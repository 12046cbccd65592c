import CopperTidy.Proofs.OpenEnds
import CopperTidy.Proofs.Reasons
import CopperTidy.Proofs.Tidy

/-! # What a run leaves alone

A run may remove tracks, mend vias and move the ends of traces, and no more than that. The end of a
trace only ever comes to where a trace like it ended before the run, and an end on a pad stays. One
move spares what it does not touch (`Move.spares`), and sparing is transitive, so a run of moves
spares it too.
-/

namespace CopperTidy
set_option autoImplicit false

namespace Board

variable {o : Options} {b c d : Board} {cs : List Change} {id : Nat} {t u v : Track}

/-- `u` is what has become of the track `t` of `b`. -/
structure Spared (b : Board) (t u : Track) : Prop where
  /-- Nothing is new but the places of the ends. -/
  body : u = { t with start := u.start, stop := u.stop }
  arc : t.isArc = true → u = t
  via : t.isVia = true → u.start = t.start
  /-- Each end of a trace was an end of a trace like it. -/
  ends : t.isTrace = true → ∀ side, ∃ id s, b.track? id = some s ∧ s.isTrace = true ∧
    s.net = t.net ∧ s.layer = t.layer ∧ s.width = t.width ∧ s.hasEndAt (u.point side) = true
  /-- An end of a trace on a plated pad, of whatever net, has not moved. -/
  anchored : t.isTrace = true → ∀ side, ∀ pad ∈ b.pads, pad.kind ≠ .nonPlated →
    pad.position = t.point side → pad.layers.contains t.layer = true →
      u.point side = t.point side

/-- No pad and no zone of `c` is new or gone, and every track of it was in its slot already. -/
structure Spares (b c : Board) : Prop where
  pads : c.pads = b.pads
  zones : c.zones = b.zones
  tracks : ∀ id u, c.track? id = some u → ∃ t, b.track? id = some t ∧ b.Spared t u

theorem Spared.refl (there : b.track? id = some t) : b.Spared t t where
  body := rfl
  arc _ := rfl
  via _ := rfl
  ends trace side :=
    ⟨id, t, there, trace, rfl, rfl, rfl, (Track.hasEndAt_iff_side side).mpr (.inl rfl)⟩
  anchored _ _ _ _ _ _ _ := rfl

theorem Spares.refl (b : Board) : b.Spares b := ⟨rfl, rfl, fun _ u there => ⟨u, there, .refl there⟩⟩

theorem Spared.mended (bad : Run.isMalformedVia t = true) :
    b.Spared t { t with stop := t.start } := by
  have via : t.isVia = true := (Bool.and_eq_true_iff.mp bad).1
  have not_trace : ¬ t.isTrace = true := by simp [Track.isTrace_of_isVia via]
  exact ⟨rfl, fun arc => absurd via (by simp [Track.isVia_of_isArc arc]), fun _ => rfl,
    fun trace => absurd trace not_trace, fun trace => absurd trace not_trace⟩

/-- The end that moves comes to an end of the other trace; a pad would have kept it. -/
theorem Spared.stretched {side : Side} {other : Nat} (meet : b.Junction id side other t u)
    (free : b.padsUnder t side = []) :
    b.Spared t (t.setPoint (Run.farEnd u (t.point side)) side) := by
  obtain ⟨trace, trace'⟩ := meet.isTrace
  have width : t.width = u.width := by
    have kinds := meet.kinds
    simp only [Track.mergeable, Bool.and_eq_true, beq_iff_eq] at kinds
    exact kinds.2
  have far : u.hasEndAt (Run.farEnd u (t.point side)) = true := by
    rw [Track.hasEndAt_iff]
    rcases Track.farEnd_of_hasEndAt meet.endsThere with ⟨_, eq⟩ | ⟨_, eq⟩
    · exact .inr eq.symm
    · exact .inl eq.symm
  constructor
  · cases side <;> rfl
  · exact fun arc => absurd trace (by simp [Track.isTrace_of_isArc arc])
  · exact fun via => absurd via (by simp [Track.isVia_of_isTrace trace])
  · intro _ side'
    by_cases same : side' = side
    · refine ⟨other, u, meet.thereOther, trace', meet.net, meet.layer, width.symm, ?_⟩
      rw [same, Track.point_setPoint]
      exact far
    · rw [Side.eq_opposite_of_ne same, Track.point_opposite_setPoint]
      exact ⟨id, t, meet.there, trace, rfl, rfl, rfl,
        (Track.hasEndAt_iff_side side).mpr (.inr rfl)⟩
  · intro _ side' pad mem plated place layer
    by_cases same : side' = side
    · subst same
      have off := padsUnder_eq_nil_iff.mp free pad mem
      have hits : pad.hits (t.point side') t.layers = true := by
        rw [Track.layers_of_isTrace trace]
        simp [Pad.hits, plated, place, LayerSet.intersects_of_contains layer]
      rw [off] at hits
      cases hits
    · rw [Side.eq_opposite_of_ne same, Track.point_opposite_setPoint]

theorem Move.spares (h : Move o b cs c) : b.Spares c := by
  obtain ⟨pads, zones⟩ := h.pads_zones
  refine ⟨pads, zones, fun id u live => ?_⟩
  cases h with
  | @mend id' t there bad =>
    rw [track?_modify] at live
    split at live
    · next e =>
      subst e
      rw [there] at live
      cases live
      exact ⟨t, there, .mended bad⟩
    · exact ⟨u, live, .refl live⟩
  | leave =>
    have there := (track?_of_remove live).2
    exact ⟨u, there, .refl there⟩
  | @merge id' other t u' side on meet ends line free =>
    obtain ⟨_, live⟩ := track?_of_remove live
    rw [track?_modify] at live
    split at live
    · next e =>
      subst e
      rw [meet.there] at live
      cases live
      exact ⟨t, meet.there, .stretched meet free⟩
    · exact ⟨u, live, .refl live⟩

theorem Spared.isTrace (h : b.Spared t u) : u.isTrace = t.isTrace := by
  rw [h.body]
  rfl

/-- An end of a trace of `c` was an end of a trace like it of `b`. -/
theorem Spares.end_was (h : b.Spares c) (there : c.track? id = some u) (trace : u.isTrace = true)
    {p : Point} (ends : u.hasEndAt p = true) :
    ∃ id' s, b.track? id' = some s ∧ s.isTrace = true ∧ s.net = u.net ∧ s.layer = u.layer ∧
      s.width = u.width ∧ s.hasEndAt p = true := by
  obtain ⟨t, _, spared⟩ := h.tracks id u there
  have net : u.net = t.net := by rw [spared.body]
  have layer : u.layer = t.layer := by rw [spared.body]
  have width : u.width = t.width := by rw [spared.body]
  rw [net, layer, width]
  have ends_at := spared.ends (spared.isTrace.symm.trans trace)
  rcases Track.hasEndAt_iff.mp ends with rfl | rfl
  · exact ends_at .start
  · exact ends_at .stop

theorem Spared.trans (before : b.Spares c) (first : b.Spared t u) (second : c.Spared u v) :
    b.Spared t v := by
  have shape : u.shape = t.shape := by rw [first.body]
  have net : u.net = t.net := by rw [first.body]
  have layer : u.layer = t.layer := by rw [first.body]
  have width : u.width = t.width := by rw [first.body]
  constructor
  · have body := second.body
    rw [first.body] at body
    exact body
  · intro arc
    have kept : u = t := first.arc arc
    rw [second.arc (by rw [kept, arc]), kept]
  · intro via
    have via' : u.isVia = true := by
      rw [Track.isVia, shape]
      exact via
    rw [second.via via', first.via via]
  · intro trace side
    obtain ⟨id, s, there, traceS, netS, layerS, widthS, ends⟩ :=
      second.ends (first.isTrace.trans trace) side
    rw [← net, ← layer, ← width, ← netS, ← layerS, ← widthS]
    exact before.end_was there traceS ends
  · intro trace side pad mem plated place on_layer
    have stayed := first.anchored trace side pad mem plated place on_layer
    rw [second.anchored (first.isTrace.trans trace) side pad (before.pads ▸ mem) plated
      (place.trans stayed.symm) (layer ▸ on_layer), stayed]

theorem Spares.trans (first : b.Spares c) (second : c.Spares d) : b.Spares d := by
  refine ⟨second.pads.trans first.pads, second.zones.trans first.zones, fun id v live => ?_⟩
  obtain ⟨u, there, later⟩ := second.tracks id v live
  obtain ⟨t, there', earlier⟩ := first.tracks id u there
  exact ⟨t, there', earlier.trans first later⟩

theorem Moves.spares (h : Moves o b cs c) : b.Spares c := by
  induction h with
  | nil => exact .refl b
  | snoc _ last ih => exact ih.trans last.spares

/-! ## Arcs -/

theorem Leaves.of_arc {reason : Reason} (why : b.Leaves o id t reason) (arc : t.isArc = true) :
    reason = .misConnected ∨ reason = .dangling := by
  have not_trace := Track.isTrace_of_isArc arc
  have not_via := Track.isVia_of_isArc arc
  cases why with
  | null _ null => simp [Track.isNull, not_trace] at null
  | stacked _ _ _ same =>
    simp only [Track.duplicateVias, Bool.and_eq_true] at same
    rw [isThroughVia_isVia same.1.2] at not_via
    cases not_via
  | onPad _ through =>
    rw [isThroughVia_isVia through] at not_via
    cases not_via
  | copy _ _ _ _ same => simp [Track.duplicates, arc] at same
  | overlapped _ meet =>
    rw [meet.isTrace.2] at not_trace
    cases not_trace
  | short => exact .inl rfl
  | loose => exact .inr rfl

theorem Moves.arc_removal (h : Moves o b cs c) {reason : Reason}
    (logged : .removed id t reason ∈ cs) (arc : t.isArc = true) :
    reason = .misConnected ∨ reason = .dangling := by
  obtain ⟨d, _, _, _, why | ⟨_, trace, _⟩⟩ := h.removal logged
  · exact why.of_arc arc
  · rw [Track.isTrace_of_isArc arc] at trace
    cases trace

/-- No move but a removal is about an arc. -/
theorem Move.arc_fate (h : Move o b cs c) (there : b.track? id = some t) (arc : t.isArc = true) :
    c.track? id = some t ∨ ∃ reason, .removed id t reason ∈ cs := by
  cases h with
  | @mend id' t' there' bad =>
    have ne : id ≠ id' := by
      rintro rfl
      rw [there] at there'
      cases there'
      have via : t.isVia = true := (Bool.and_eq_true_iff.mp bad).1
      rw [Track.isVia_of_isArc arc] at via
      cases via
    rw [track?_modify, if_neg ne]
    exact .inl there
  | @leave id' t' reason there' =>
    by_cases e : id = id'
    · subst e
      rw [there] at there'
      cases there'
      exact .inr ⟨reason, List.mem_singleton_self _⟩
    · rw [track?_remove, if_neg e]
      exact .inl there
  | @merge id' other t' u side _ meet =>
    have not_trace {k : Nat} {s : Track} (there' : b.track? k = some s) (trace : s.isTrace = true) :
        id ≠ k := by
      rintro rfl
      rw [there] at there'
      cases there'
      rw [Track.isTrace_of_isArc arc] at trace
      cases trace
    rw [track?_remove, if_neg (not_trace meet.thereOther meet.isTrace.2), track?_modify,
      if_neg (not_trace meet.there meet.isTrace.1)]
    exact .inl there

theorem Moves.arc_fate (h : Moves o b cs c) (there : b.track? id = some t)
    (arc : t.isArc = true) : c.track? id = some t ∨ ∃ reason, .removed id t reason ∈ cs := by
  induction h with
  | nil => exact .inl there
  | snoc _ last ih =>
    rcases ih with live | ⟨reason, earlier⟩
    · rcases last.arc_fate live arc with kept | ⟨reason, now⟩
      · exact .inl kept
      · exact .inr ⟨reason, List.mem_append_right _ now⟩
    · exact .inr ⟨reason, List.mem_append_left _ earlier⟩

/-! ## A whole cleaning -/

/-- A cleaning spares pads, zones and all of a track but the ends of a trace and the malformed end
of a via. An arc only goes for a short, or as a dangling track. -/
theorem clean_spares (b : Board) (o : Options) :
    let c := b.clean o
    b.Spares c.board ∧
      (o.anyEnabled = true →
        ∀ id u, c.board.track? id = some u → u.isVia = true → u.stop = u.start) ∧
      (∀ id t, b.track? id = some t → t.isArc = true → c.board.track? id ≠ some t →
        ∃ reason, .removed id t reason ∈ c.changes) ∧
      ∀ id t reason, .removed id t reason ∈ c.changes → t.isArc = true →
        reason = .misConnected ∨ reason = .dangling := by
  intro c
  have moves := clean_moves b o
  refine ⟨moves.spares, fun on id u live via => ?_, fun id t there arc changed => ?_,
    fun id t reason logged arc => moves.arc_removal logged arc⟩
  · obtain ⟨straight, _⟩ := Run.cleanup_tidy on (Run.start b Observer.silent ())
    rw [← clean_board] at straight
    exact Track.stop_eq_start (straight id u live) via
  · exact (moves.arc_fate there arc).resolve_left changed

end Board
end CopperTidy
