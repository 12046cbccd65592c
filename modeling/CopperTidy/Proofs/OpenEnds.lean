import CopperTidy.Proofs.Islands.Sound

/-! # Open ends

An end of a track dangles because of what is at its point: no pad, no zone, and of its net nothing,
or only a through via from which nothing else goes on. `Board.Loose` says so of the point and the
layers alone, without the order in which the dangling pass finds tracks there.
-/

namespace CopperTidy.Board
set_option autoImplicit false

variable {b c : Board} {net : UInt32} {p : Point} {k id v : Nat} {t via : Track} {side : Side}

/-- Via layers lie between the front and the back layer. -/
def CopperVias (b : Board) : Prop :=
  ∀ id t span, b.track? id = some t → t.shape = .via span →
    span.top.number.toNat < 32 ∧ span.bottom.number.toNat < 32

theorem CopperVias.low (copper : b.CopperVias) (there : b.track? id = some t)
    (isVia : t.isVia = true) (layer : t.layers.mask.testBit k = true) : k < 32 := by
  cases shape : t.shape with
  | trace | arc => simp [Track.isVia, shape] at isVia
  | via span =>
    by_cases through : t.isThroughVia = true
    · exact (Track.testBit_layers_of_isThroughVia through).mp layer
    · have partial_span : ¬ span.viaType = .through := by
        simpa [Track.isThroughVia, shape] using through
      have layers : t.layers = .span span.top span.bottom := by
        simp only [Track.layers, Track.layerPair, shape, if_neg partial_span]
      obtain ⟨top, bottom⟩ := copper id t span there shape
      rw [layers] at layer
      simp only [LayerSet.span, Nat.one_shiftLeft, Nat.testBit_shiftLeft,
        Nat.testBit_two_pow_sub_one, Bool.and_eq_true, decide_eq_true_eq] at layer
      omega

theorem stable_copperVias : Stable CopperVias := by
  intro o b c cs move copper id t span live shape
  have isVia : t.isVia = true := by simp [Track.isVia, shape]
  obtain ⟨t', there, was⟩ := (move.origin live).via_was isVia
  have shape' : t'.shape = .via span := by
    rcases was with rfl | ⟨_, rfl⟩ <;> exact shape
  exact copper id t' span there shape'

/-! ## What is at a point -/

/-- No plated pad, of whatever net, is at the point on one of the layers. -/
def PadFree (b : Board) (p : Point) (layers : LayerSet) : Prop :=
  ∀ pad ∈ b.pads, pad.hits p layers = false

/-- Of the net, only the given names reach the point on one of the layers. -/
def Lonely (b : Board) (net : UInt32) (p : Point) (layers : LayerSet) (but : List Conductor) :
    Prop :=
  ∀ x k, layers.mask.testBit k = true → b.Reaches net x p k → x ∈ but

theorem padsUnder_eq_nil_iff :
    b.padsUnder t side = [] ↔ b.PadFree (t.point side) t.layers := by
  rw [List.eq_nil_iff_forall_not_mem]
  simp only [padsUnder, padsAt, mem_padsWhere, PadFree]
  constructor
  · intro none_under pad mem
    obtain ⟨n, listed⟩ := List.mem_iff_getElem?.mp mem
    exact Bool.eq_false_iff.mpr fun hits => none_under n ⟨pad, listed, hits⟩
  · rintro free n ⟨pad, listed, hits⟩
    rw [free pad (List.mem_of_getElem? listed)] at hits
    cases hits

theorem onPad_eq_false_iff (there : b.track? id = some t) :
    ContactSource.onPad Scan.mk b id side = false ↔ b.PadFree (t.point side) t.layers := by
  have unfolded : ContactSource.onPad Scan.mk b id side = !(b.padsUnder t side).isEmpty := by
    simp [ContactSource.onPad, there]
  rw [unfolded, Bool.not_eq_false', List.isEmpty_iff, padsUnder_eq_nil_iff]

theorem PadFree.not_reaches {layers : LayerSet} (free : b.PadFree p layers)
    (layer : layers.mask.testBit k = true) (n : Nat) : ¬ b.Reaches net (.pad n) p k := by
  intro reaches
  obtain ⟨pad, listed, _, at_point⟩ := reaches_pad.mp reaches
  have hits := Pad.hits_iff.mpr ⟨k, at_point, layer⟩
  rw [free pad (List.mem_of_getElem? listed)] at hits
  cases hits

/-- Where no pad is, it takes a track to reach a point. -/
theorem lonely_iff {layers : LayerSet} (free : b.PadFree p layers) {but : List Conductor} :
    b.Lonely net p layers but ↔
      ∀ n u, b.track? n = some u → u.net = net → u.hasEndAt p = true →
        u.layers.intersects layers = true → .track n ∈ but := by
  constructor
  · intro lonely n u there inNet ends shares
    obtain ⟨k, own, layer⟩ := LayerSet.intersects_iff.mp shares
    exact lonely (.track n) k layer (reaches_track.mpr ⟨u, there, inNet, ends, own⟩)
  · intro only x k layer reaches
    cases x with
    | pad n => exact absurd reaches (free.not_reaches layer n)
    | track n =>
      obtain ⟨u, there, inNet, ends, own⟩ := reaches_track.mp reaches
      exact only n u there inNet ends (LayerSet.intersects_iff.mpr ⟨k, own, layer⟩)

theorem attached_eq_nil_iff (there : b.track? id = some t)
    (free : b.PadFree (t.point side) t.layers) :
    b.attached id side = [] ↔ b.Lonely t.net (t.point side) t.layers [.track id] := by
  rw [lonely_iff free, List.eq_nil_iff_forall_not_mem]
  simp only [mem_attached, there, Option.some.injEq, List.mem_singleton, Conductor.track.injEq]
  constructor
  · intro none_there n u live inNet ends shares
    refine Decidable.byContradiction fun ne => ?_
    exact none_there n ⟨t, u, rfl, live, ne, ends, shares, inNet⟩
  · rintro only n ⟨_, u, rfl, live, ne, ends, shares, inNet⟩
    exact ne (only n u live inNet ends shares)

/-- The other items at a through via, apart from one track. -/
theorem mem_around_via {w : Nat} :
    w ∈ ContactSource.itemsAt Scan.mk b v via via.start { sameNet := true, exclude := [id] } ↔
      ∃ u, b.track? w = some u ∧ w ≠ v ∧ w ≠ id ∧ u.hasEndAt via.start = true ∧
        u.sharesLayer via = true ∧ u.net = via.net := by
  show w ∈ (b.tracks.filter _).map _ ↔ _
  rw [mem_ids_filter]
  refine exists_congr fun u => and_congr_right fun _ => ?_
  simp only [Neighbors.wants, Bool.and_eq_true, bne_iff_ne, Bool.not_eq_true', Bool.not_true,
    Bool.false_or, List.contains_eq_mem, List.mem_singleton, decide_eq_false_iff_not, beq_iff_eq]
  constructor
  · rintro ⟨ends, ⟨⟨notV, notId⟩, layer⟩, net⟩
    exact ⟨notV, notId, ends, layer, net⟩
  · rintro ⟨notV, notId, ends, layer, net⟩
    exact ⟨ends, ⟨⟨notV, notId⟩, layer⟩, net⟩

/-- A via at which a track ends, and nothing else: no pad, no zone and no other track of its net. -/
structure DeadEnd (b : Board) (id v : Nat) (via : Track) : Prop where
  there : b.track? v = some via
  through : via.isThroughVia = true
  padFree : b.PadFree via.start via.layers
  lonely : b.Lonely via.net via.start via.layers [.track id, .track v]
  noZone : b.zoneUnder? via .start = none

theorem deadEnd_iff (there : b.track? v = some via) (through : via.isThroughVia = true) :
    deadEnd Scan.mk b id v via = true ↔ b.DeadEnd id v via := by
  have split : deadEnd Scan.mk b id v via = true ↔ b.PadFree via.start via.layers ∧
      ContactSource.itemsAt Scan.mk b v via via.start { sameNet := true, exclude := [id] } = [] ∧
        b.zoneUnder? via .start = none := by
    simp only [deadEnd, Bool.and_eq_true, Bool.not_eq_true', List.isEmpty_iff,
      Option.isNone_iff_eq_none, and_assoc]
    rw [onPad_eq_false_iff there]
    rfl
  have around (free : b.PadFree via.start via.layers) :
      ContactSource.itemsAt Scan.mk b v via via.start { sameNet := true, exclude := [id] } = [] ↔
        b.Lonely via.net via.start via.layers [.track id, .track v] := by
    rw [lonely_iff free, List.eq_nil_iff_forall_not_mem]
    simp only [mem_around_via, List.mem_cons, Conductor.track.injEq, List.not_mem_nil, or_false]
    constructor
    · intro none_there n u live inNet ends shares
      refine Decidable.byContradiction fun other => ?_
      rw [not_or] at other
      exact none_there n ⟨u, live, other.2, other.1, ends, shares, inNet⟩
    · rintro only n ⟨u, live, notV, notId, ends, shares, inNet⟩
      exact (only n u live inNet ends shares).elim notId notV
  rw [split]
  constructor
  · rintro ⟨free, alone, noZone⟩
    exact ⟨there, through, free, (around free).mp alone, noZone⟩
  · rintro ⟨_, _, free, lonely, noZone⟩
    exact ⟨free, (around free).mpr lonely, noZone⟩

/-! ## Fading

What stays alone while tracks go. -/

theorem Fades.reaches {gone : Nat → Prop} {x : Conductor} (since : Fades gone b c)
    (h : c.Reaches net x p k) : b.Reaches net x p k := by
  cases x with
  | pad n =>
    obtain ⟨pad, listed, facts⟩ := reaches_pad.mp h
    rw [pad?, since.pads] at listed
    exact reaches_pad.mpr ⟨pad, listed, facts⟩
  | track n =>
    obtain ⟨t, live, facts⟩ := reaches_track.mp h
    exact reaches_track.mpr ⟨t, since.was live, facts⟩

theorem Lonely.fades {gone : Nat → Prop} {layers : LayerSet} {but : List Conductor}
    (lonely : b.Lonely net p layers but) (since : Fades gone b c) :
    c.Lonely net p layers but :=
  fun x k layer reaches => lonely x k layer (since.reaches reaches)

theorem DeadEnd.fades {gone : Nat → Prop} (dead : b.DeadEnd id v via)
    (since : Fades gone b c) (live : c.track? v = some via) : c.DeadEnd id v via := by
  refine ⟨live, dead.through, ?_, dead.lonely.fades since, ?_⟩
  · rw [PadFree, since.pads]
    exact dead.padFree
  · rw [zoneUnder?, zoneAt?, since.zones]
    exact dead.noZone

/-! ## Ends that dangle -/

/-- An end of a track that no pad, no zone and nothing of its net holds, a dead end apart. -/
inductive Loose (b : Board) (id : Nat) (t : Track) (side : Side) : Prop
  | free (padFree : b.PadFree (t.point side) t.layers)
      (lonely : b.Lonely t.net (t.point side) t.layers [.track id])
      (noZone : b.zoneUnder? t side = none) : Loose b id t side
  | atVia {v : Nat} {via : Track} (padFree : b.PadFree (t.point side) t.layers) (ne : v ≠ id)
      (net : via.net = t.net) (place : via.start = t.point side)
      (shares : via.sharesLayer t = true) (dead : b.DeadEnd id v via) : Loose b id t side

theorem endDangles_iff (there : b.track? id = some t) :
    endDangles Scan.mk b id side = true ↔
      (b.attached id side = [] ∧ b.zoneUnder? t side = none) ∨
        ∃ v rest via, b.attached id side = v :: rest ∧ b.track? v = some via ∧
          via.isThroughVia = true ∧ deadEnd Scan.mk b id v via = true := by
  have first : ContactSource.firstConnectedAt? Scan.mk b id side { sameNet := true } =
      (b.attached id side).head? := rfl
  unfold endDangles
  rw [there]
  simp only [first]
  cases attached : b.attached id side with
  | nil => simp
  | cons v rest =>
    cases thereV : b.track? v with
    | none => simp [thereV]
    | some via => simp [thereV]

theorem dangles_iff_side :
    dangles Scan.mk b id = true ↔
      ∃ side, ContactSource.onPad Scan.mk b id side = false ∧
        endDangles Scan.mk b id side = true := by
  simp only [dangles, Bool.or_eq_true, Bool.and_eq_true, Bool.not_eq_true']
  constructor
  · rintro (h | h)
    · exact ⟨.start, h⟩
    · exact ⟨.stop, h⟩
  · rintro ⟨side, h⟩
    cases side with
    | start => exact .inl h
    | stop => exact .inr h

theorem exists_track_of_dangles (h : dangles Scan.mk b id = true) : ∃ t, b.track? id = some t := by
  obtain ⟨_, _, ends⟩ := dangles_iff_side.mp h
  cases there : b.track? id with
  | some t => exact ⟨t, rfl⟩
  | none => simp [endDangles, there] at ends

theorem exists_loose (straight : b.StraightVias) (there : b.track? id = some t)
    (h : dangles Scan.mk b id = true) : ∃ side, b.Loose id t side := by
  obtain ⟨side, offPad, open_end⟩ := dangles_iff_side.mp h
  have free := (onPad_eq_false_iff there).mp offPad
  refine ⟨side, ?_⟩
  rcases (endDangles_iff there).mp open_end with
    ⟨none_there, noZone⟩ | ⟨v, rest, via, attached, thereV, through, dead⟩
  · exact .free free ((attached_eq_nil_iff there free).mp none_there) noZone
  · obtain ⟨t', via', there', thereV', ne, ends, shares, sameNet⟩ :=
      mem_attached.mp (attached ▸ List.mem_cons_self (a := v) (l := rest))
    rw [there] at there'
    rw [thereV] at thereV'
    cases there'
    cases thereV'
    have place := (Track.hasEndAt_via (straight v via thereV) (isThroughVia_isVia through)).mp ends
    exact .atVia free ne sameNet place shares ((deadEnd_iff thereV through).mp dead)

/-- The track at a dead end conducts on copper layers, as the via does that it touches. -/
theorem DeadEnd.copper_end (dead : b.DeadEnd id v via)
    (low : t.isVia = true → ∀ k, t.layers.mask.testBit k = true → k < 32)
    (shares : via.sharesLayer t = true) (layer : t.layers.mask.testBit k = true) : k < 32 := by
  by_cases isVia : t.isVia = true
  · exact low isVia k layer
  · have single {k : Nat} := Track.testBit_layers_of_not_isVia (t := t) (k := k)
      (Bool.eq_false_iff.mpr isVia)
    rw [Track.sharesLayer, LayerSet.intersects_iff] at shares
    obtain ⟨m, high, own⟩ := shares
    rw [single] at own layer
    rw [← layer, own]
    exact (Track.testBit_layers_of_isThroughVia dead.through).mp high

/-- What reaches the end of a track at a dead end is the track or the via: the via conducts on every
copper layer, and the track on no other. -/
theorem DeadEnd.lonely_end (dead : b.DeadEnd id v via)
    (low : t.isVia = true → ∀ k, t.layers.mask.testBit k = true → k < 32)
    (sameNet : via.net = t.net) (place : via.start = t.point side)
    (shares : via.sharesLayer t = true) :
    b.Lonely t.net (t.point side) t.layers [.track id, .track v] := by
  intro x k layer reaches
  rw [← place, ← sameNet] at reaches
  exact dead.lonely x k ((Track.testBit_layers_of_isThroughVia dead.through).mpr
    (dead.copper_end low shares layer)) reaches

theorem zoneAt?_eq_none_iff {top bottom : Layer} :
    b.zoneAt? p top bottom net = none ↔
      ∀ z ∈ b.zones, z.net = net → z.covers p top bottom = false := by
  simp [zoneAt?, List.findIdx?_eq_none_iff]

/-- A zone at the end of the track would be at the via. -/
theorem DeadEnd.noZone_end (dead : b.DeadEnd id v via)
    (low : t.isVia = true → ∀ k, t.layers.mask.testBit k = true → k < 32)
    (sameNet : via.net = t.net) (place : via.start = t.point side)
    (shares : via.sharesLayer t = true) : b.zoneUnder? t side = none := by
  have noZone := dead.noZone
  rw [zoneUnder?, Track.layerPair_of_isThroughVia dead.through, zoneAt?_eq_none_iff] at noZone
  obtain ⟨top, bottom⟩ := t.contains_layerPair
  have lowTop := dead.copper_end low shares top
  have lowBottom := dead.copper_end low shares bottom
  refine zoneAt?_eq_none_iff.mpr fun z mem inNet => Bool.eq_false_iff.mpr fun covers => ?_
  rw [← place] at covers
  exact Bool.eq_false_iff.mp (noZone z mem (inNet.trans sameNet.symm))
    (Zone.covers_all lowTop lowBottom covers)

/-- An end that is loose stays so while tracks go: where the via of a dead end went, nothing is left
at the end. -/
theorem Loose.fades {gone : Nat → Prop} (loose : b.Loose id t side)
    (low : t.isVia = true → ∀ k, t.layers.mask.testBit k = true → k < 32)
    (since : Fades gone b c) : c.Loose id t side := by
  cases loose with
  | free padFree lonely noZone =>
    refine .free ?_ (lonely.fades since) ?_
    · rwa [PadFree, since.pads]
    · rwa [zoneUnder?, zoneAt?, since.zones]
  | @atVia v via padFree ne sameNet place shares dead =>
    have padFree' : c.PadFree (t.point side) t.layers := by rwa [PadFree, since.pads]
    cases live : c.track? v with
    | some via' =>
      cases dead.there.symm.trans (since.was live)
      exact .atVia padFree' ne sameNet place shares (dead.fades since live)
    | none =>
      refine .free padFree' (fun x k layer reaches => ?_) ?_
      · have notV : x ≠ .track v := by
          rintro rfl
          obtain ⟨_, there, _⟩ := reaches_track.mp reaches
          rw [live] at there
          cases there
        have lonely := (dead.lonely_end low sameNet place shares).fades since
        simpa [notV] using lonely x k layer reaches
      · rw [zoneUnder?, zoneAt?, since.zones]
        exact dead.noZone_end low sameNet place shares

theorem Loose.dangles (loose : b.Loose id t side) (copper : b.CopperVias)
    (there : b.track? id = some t) :
    CopperTidy.dangles Scan.mk b id = true := by
  refine dangles_iff_side.mpr ⟨side, ?_⟩
  cases loose with
  | free padFree lonely noZone =>
    refine ⟨(onPad_eq_false_iff there).mpr padFree, (endDangles_iff there).mpr (.inl ⟨?_, noZone⟩)⟩
    exact (attached_eq_nil_iff there padFree).mpr lonely
  | @atVia v via padFree ne sameNet place shares dead =>
    refine ⟨(onPad_eq_false_iff there).mpr padFree, (endDangles_iff there).mpr (.inr ?_)⟩
    have ends : via.hasEndAt (t.point side) = true := Track.hasEndAt_iff.mpr (.inl place)
    have mem : v ∈ b.attached id side :=
      mem_attached.mpr ⟨t, via, there, dead.there, ne, ends, shares, sameNet⟩
    -- The via is first because nothing else is there.
    have only : ∀ w ∈ b.attached id side, w = v := by
      intro w mem
      obtain ⟨t', u, there', live, notId, ends, shares', sameNet'⟩ := mem_attached.mp mem
      rw [there] at there'
      cases there'
      have lonely := dead.lonely_end (fun isVia _ => copper.low there isVia) sameNet place shares
      have listed := (lonely_iff padFree).mp lonely w u live sameNet' ends shares'
      simpa [notId] using listed
    cases attached : b.attached id side with
    | nil =>
      rw [attached] at mem
      cases mem
    | cons w rest =>
      have first : w = v := only w (attached ▸ List.mem_cons_self)
      subst first
      exact ⟨w, rest, via, rfl, dead.there, dead.through,
        (deadEnd_iff dead.there dead.through).mpr dead⟩

end CopperTidy.Board
