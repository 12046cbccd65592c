import CopperTidy.Proofs.OpenEnds

/-! # Stranded vias

A track that dangles has, at its open end, nothing or a through via that depends on it. Once the
track is gone the via is stranded: it dangles as well, no move attaches anything to it, and the next
round takes it away.
-/

namespace CopperTidy.Board
set_option autoImplicit false

variable {b c past : Board} {o : Options} {net : UInt32} {x : Conductor} {id v : Nat}
  {t via : Track}

/-- A through via that nothing of its net touches, off pads and zones. -/
def Stranded (b : Board) (x : Conductor) : Prop :=
  ∃ v via, x = .track v ∧ b.track? v = some via ∧ via.isThroughVia = true ∧
    ContactSource.onPad Scan.mk b v .start = false ∧ b.attached v .start = [] ∧
    b.zoneUnder? via .start = none

theorem dangles_of_stranded (h : Stranded b (.track v)) : dangles Scan.mk b v = true := by
  obtain ⟨v', via, e, there, _, offPad, alone, noZone⟩ := h
  cases e
  exact dangles_iff_side.mpr ⟨.start, offPad, (endDangles_iff there).mpr (.inl ⟨alone, noZone⟩)⟩

theorem onPad_congr {side : Side} (hb : b.track? id = some t) (hc : c.track? id = some t)
    (pads : c.pads = b.pads) :
    ContactSource.onPad Scan.mk c id side = ContactSource.onPad Scan.mk b id side := by
  simp only [ContactSource.onPad, hb, hc, padsUnder, padsAt, padsWhere, pads]

/-- No move attaches anything to a stranded via. -/
theorem Stranded.move {cs : List Change} (h : Stranded b x) (move : Move o b cs c)
    (straight : ∀ id t, b.track? id = some t → t.net = net → Run.isMalformedVia t = false)
    (live : (c.item? net x).isSome = true) : Stranded c x := by
  obtain ⟨v, via, rfl, there, through, offPad, alone, noZone⟩ := h
  have isVia := isThroughVia_isVia through
  obtain ⟨_, was⟩ := Option.isSome_iff_exists.mp (move.was_there live)
  obtain ⟨via', there', inNet, _⟩ := item?_track.mp was
  cases there.symm.trans there'
  obtain ⟨_, named⟩ := Option.isSome_iff_exists.mp live
  obtain ⟨u, liveU, _, _⟩ := item?_track.mp named
  have same := (move.origin liveU).via_stays there isVia (straight v via there inNet)
  subst same
  obtain ⟨pads, zones⟩ := move.pads_zones
  refine ⟨v, u, rfl, liveU, through, (onPad_congr there liveU pads).trans offPad, ?_, ?_⟩
  · rw [List.eq_nil_iff_forall_not_mem] at alone ⊢
    intro w mem
    obtain ⟨u', w', live', liveW, ne, ends, layer, sameNet⟩ := mem_attached.mp mem
    rw [liveU] at live'
    cases live'
    obtain ⟨n, t', thereN, endsN, netN, layersN, whose⟩ := (move.origin liveW).end_was ends
    have notV : n ≠ v := by
      rcases whose with rfl | ⟨side, t₀, meet⟩
      · exact ne
      · rintro rfl
        cases meet.thereOther.symm.trans there
        have trace := meet.isTrace.2
        rw [Track.isTrace_of_isVia isVia] at trace
        cases trace
    refine alone n (mem_attached.mpr ⟨u, t', there, thereN, notV, endsN, ?_, netN.trans sameNet⟩)
    rw [Track.sharesLayer, layersN]
    exact layer
  · rw [zoneUnder?, zoneAt?, zones]
    exact noZone

/-! ## What a track leaves at its open end -/

/-- A via at which a track ended that is gone, and nothing else. -/
theorem DeadEnd.stranded (dead : b.DeadEnd id v via) (ne : v ≠ id) :
    Stranded (b.remove id) (.track v) := by
  have since : Fades (fun _ => True) b (b.remove id) := (Fades.refl b).remove trivial
  have still : (b.remove id).track? v = some via := by
    rw [track?_remove, if_neg ne]
    exact dead.there
  have free : (b.remove id).PadFree (via.point .start) via.layers := by
    rw [PadFree, since.pads]
    exact dead.padFree
  refine ⟨v, via, rfl, still, dead.through, (onPad_eq_false_iff still).mpr free, ?_, ?_⟩
  · refine (attached_eq_nil_iff still free).mpr fun x k layer reaches => ?_
    have listed := dead.lonely x k layer (since.reaches reaches)
    have notId : x ≠ .track id := by
      rintro rfl
      obtain ⟨u, live, _⟩ := reaches_track.mp reaches
      exact (track?_of_remove live).1 rfl
    simpa [notId] using listed
  · rw [zoneUnder?, zoneAt?, since.zones]
    exact dead.noZone

/-- An end of a track at which only leaves are. A leaf has no other neighbour, and is stranded once
the track is gone. -/
structure OpensAt (b : Board) (net : UInt32) (id : Nat) (t : Track) (side : Side)
    (leaf : Conductor → Prop) : Prop where
  meet : ∀ w k, w ≠ .track id → b.Reaches net w (t.point side) k →
    t.layers.mask.testBit k = true → leaf w
  alone : ∀ v z p k, leaf v → b.Reaches net v p k → b.Reaches net z p k → z = .track id ∨ z = v
  stranded : ∀ v, leaf v → (b.item? net v).isSome = true → Stranded (b.remove id) v

theorem exists_opensAt (there : b.track? id = some t) (inNet : t.net = net)
    (low : t.isVia = true → ∀ k, t.layers.mask.testBit k = true → k < 32)
    (straight : past.StraightVias) {gone : Nat → Prop} (since : Fades gone past b)
    (dangling : dangles Scan.mk past id = true) :
    ∃ side leaf, b.OpensAt net id t side leaf := by
  subst inNet
  obtain ⟨side, loose⟩ := exists_loose straight (since.was there) dangling
  cases loose with
  | free padFree lonely noZone =>
    refine ⟨side, fun _ => False, fun w k hw reaches layer => ?_, nofun, nofun⟩
    exact hw (List.mem_singleton.mp (lonely w k layer (since.reaches reaches)))
  | @atVia v via padFree ne sameNet place shares dead =>
    refine ⟨side, (· = .track v), fun w k hw reaches layer => ?_, ?_, ?_⟩
    · have listed := dead.lonely_end low sameNet place shares w k layer (since.reaches reaches)
      simpa [hw] using listed
    · rintro _ z p k rfl reaches reachesZ
      obtain ⟨u, live, _, ends, layer⟩ := reaches_track.mp reaches
      cases dead.there.symm.trans (since.was live)
      have at_start := (Track.hasEndAt_via (straight v via dead.there)
        (isThroughVia_isVia dead.through)).mp ends
      rw [← at_start, ← sameNet] at reachesZ
      simpa using dead.lonely z k layer (since.reaches reachesZ)
    · rintro _ rfl live
      obtain ⟨_, named⟩ := Option.isSome_iff_exists.mp live
      obtain ⟨u, live, _, _⟩ := item?_track.mp named
      cases dead.there.symm.trans (since.was live)
      exact (dead.fades since live).stranded ne

/-- What joins the track and is not a leaf is at the other end. A straight via has none. -/
theorem OpensAt.otherwise {side : Side} {leaf : Conductor → Prop}
    (opens : b.OpensAt net id t side leaf) (straight : Run.isMalformedVia t = false)
    {w : Conductor} {p : Point} {k : Nat} (hw : w ≠ .track id) (reaches : b.Reaches net w p k)
    (ends : t.hasEndAt p = true) (layer : t.layers.mask.testBit k = true) :
    leaf w ∨ t.isVia = false ∧ b.Reaches net w (t.point side.opposite) t.layer.number.toNat := by
  rcases (Track.hasEndAt_iff_side side).mp ends with near | far
  · exact .inl (opens.meet w k hw (near ▸ reaches) layer)
  · by_cases via : t.isVia = true
    · rw [Track.point_via straight via, ← Track.point_via straight via side] at far
      exact .inl (opens.meet w k hw (far ▸ reaches) layer)
    · have not_via : t.isVia = false := Bool.eq_false_iff.mpr via
      rw [Track.testBit_layers_of_not_isVia not_via] at layer
      rw [far, layer]
      exact .inr ⟨not_via, reaches⟩

end CopperTidy.Board
