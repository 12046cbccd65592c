import CopperTidy.Proofs.Islands.Cleaned
import CopperTidy.Proofs.OpenEnds

/-! # Ends that open again

When the dangling pass is over nothing dangles, but segments are cleaned once more after it. A merge
opens no end: each end of the longer trace was an end before, with the same things around it. Only
a trace that goes because it is a copy leaves ends open, of tracks that end where it ended.
-/

namespace CopperTidy
set_option autoImplicit false

/-- Only segments are cleaned, if at all. -/
def Options.segmentsOnly (o : Options) : Options :=
  { Options.none with mergeSegments := o.mergeSegments }

/-- A log tells of a track that was taken away, and not because another was stretched over it: a
stretch is logged right before the removal. -/
def TakesAway (cs : List Change) (id : Nat) (t : Track) (reason : Reason) : Prop :=
  ∃ before after, cs = before ++ .removed id t reason :: after ∧
    before.getLast?.all Change.isRemoval = true

theorem TakesAway.append {cs : List Change} {id : Nat} {t : Track} {reason : Reason}
    (h : TakesAway cs id t reason) (ds : List Change) : TakesAway (cs ++ ds) id t reason := by
  obtain ⟨before, after, rfl, last⟩ := h
  exact ⟨before, after ++ ds, by simp, last⟩

namespace Board

variable {b c : Board} {o : Options} {net : UInt32} {p : Point} {k id other n v i : Nat}
  {side : Side} {s t u via : Track} {x : Conductor} {cs : List Change}

theorem Moves.last_removal (moves : Moves o b cs c) (straight : b.StraightVias) :
    cs.getLast?.all Change.isRemoval = true := by
  cases moves with
  | nil => rfl
  | snoc before last =>
    cases last with
    | mend there bad =>
      rw [stable_straightVias.moves before straight _ _ there] at bad
      cases bad
    | leave => simp [Change.isRemoval]
    | merge => simp [Change.isRemoval]

/-! ## Removals -/

/-- Of the net, the removed track alone could have made the place less lonely. -/
theorem Lonely.before_remove {layers : LayerSet} {but : List Conductor}
    (lonely : (b.remove id).Lonely net p layers but) (there : b.track? id = some t)
    (elsewhere : ¬ (t.net = net ∧ t.hasEndAt p = true)) : b.Lonely net p layers but := by
  intro x k layer reaches
  by_cases e : x = .track id
  · subst e
    obtain ⟨t', there', inNet, ends, _⟩ := reaches_track.mp reaches
    cases there.symm.trans there'
    exact absurd ⟨inNet, ends⟩ elsewhere
  · exact lonely x k layer ((reaches_congr (item?_remove net e)).mpr reaches)

theorem Loose.before_remove (loose : (b.remove id).Loose n s side) (there : b.track? id = some t)
    (elsewhere : ¬ (t.net = s.net ∧ t.hasEndAt (s.point side) = true)) : b.Loose n s side := by
  have pads := remove_pads b id
  have zones := remove_zones b id
  cases loose with
  | free padFree lonely noZone =>
    rw [PadFree, pads] at padFree
    rw [zoneUnder?, zoneAt?, zones] at noZone
    exact .free padFree (lonely.before_remove there elsewhere) noZone
  | @atVia v via padFree ne sameNet place shares dead =>
    rw [PadFree, pads] at padFree
    obtain ⟨live, through, viaFree, lonely, noZone⟩ := dead
    rw [PadFree, pads] at viaFree
    rw [zoneUnder?, zoneAt?, zones] at noZone
    rw [← sameNet, ← place] at elsewhere
    exact .atVia padFree ne sameNet place shares
      ⟨(track?_of_remove live).2, through, viaFree, lonely.before_remove there elsewhere, noZone⟩

/-! ## Merges -/

/-- A track that is at the junction has the name of the merged one. -/
theorem off_junction (meet : b.Junction id side other t u) (inNet : t.net = net)
    (free : b.padsUnder t side = []) (notId : n ≠ id) (notOther : n ≠ other)
    (reaches : b.Reaches net (.track n) (t.point side) k)
    (layer : t.layers.mask.testBit k = true) : False := by
  have name := at_junction meet inNet free reaches layer
  rcases mergedName_eq_track name with same | ⟨_, same⟩
  · exact notId (Conductor.track.inj same)
  · exact notOther (Conductor.track.inj same)

/-- What reaches a lonely place of the merged board keeps the name it had, unless the place is the
junction. At the junction there is no other track. -/
theorem Lonely.before_merge {layers : LayerSet} {but : List Conductor}
    (lonely : (b.mergedAt id side other t u).Lonely net p layers but)
    (meet : b.Junction id side other t u) (free : b.padsUnder t side = [])
    (apart : p = t.point side → ∃ n, n ≠ id ∧ n ≠ other ∧
      ∀ k, layers.mask.testBit k = true → b.Reaches net (.track n) p k)
    (layer : layers.mask.testBit k = true) (reaches : b.Reaches net x p k) :
    mergedName id other x ∈ but := by
  rcases reached_after_merge meet reaches with still | ⟨inNet, _, rfl, own⟩
  · exact lonely _ k layer still
  · obtain ⟨n, notId, notOther, there⟩ := apart rfl
    exact (off_junction meet inNet free notId notOther (there k layer) own).elim

theorem via_before_merge (meet : b.Junction id side other t u)
    (live : (b.mergedAt id side other t u).track? v = some via) (isVia : via.isVia = true) :
    v ≠ id ∧ v ≠ other ∧ b.track? v = some via := by
  rw [track?_mergedAt meet] at live
  split at live
  · cases live
  · next notOther =>
    split at live
    · cases live
      have trace := Track.isTrace_of_isVia isVia
      rw [Track.isTrace_setPoint, meet.isTrace.1] at trace
      cases trace
    · next notId => exact ⟨notId, notOther, live⟩

/-- `m` had the end that is loose once `id` has been merged with `other`, and is the only one there
that goes by the name of `n`. -/
structure EndWas (b : Board) (id other : Nat) (junction : Point) (n : Nat) (s : Track)
    (at_side : Side) (m : Nat) (before : Track) (was_side : Side) : Prop where
  there : b.track? m = some before
  net : before.net = s.net
  place : before.point was_side = s.point at_side
  layers : before.layers = s.layers
  layerPair : before.layerPair = s.layerPair
  name : mergedName id other (.track m) = .track n
  only : ∀ x k, b.Reaches s.net x (s.point at_side) k → mergedName id other x = .track n →
    x = .track m
  apart : s.point at_side = junction → m ≠ id ∧ m ≠ other

theorem Loose.before_merge {m : Nat} {before : Track} {at_side was_side : Side}
    (loose : (b.mergedAt id side other t u).Loose n s at_side)
    (meet : b.Junction id side other t u) (free : b.padsUnder t side = [])
    (was : b.EndWas id other (t.point side) n s at_side m before was_side) :
    b.Loose m before was_side := by
  have pads : (b.mergedAt id side other t u).pads = b.pads :=
    (remove_pads _ other).trans (modify_pads b id _)
  have zones : (b.mergedAt id side other t u).zones = b.zones :=
    (remove_zones _ other).trans (modify_zones b id _)
  have padFree (free : (b.mergedAt id side other t u).PadFree (s.point at_side) s.layers) :
      b.PadFree (before.point was_side) before.layers := by
    rw [PadFree, pads] at free
    rwa [was.place, was.layers]
  cases loose with
  | free free' lonely noZone =>
    refine .free (padFree free') (fun x k layer reaches => ?_) ?_
    · rw [was.layers] at layer
      rw [was.place, was.net] at reaches
      have listed := lonely.before_merge meet free (fun e => ?_) layer reaches
      · rw [was.only x k reaches (List.mem_singleton.mp listed)]
        exact List.mem_singleton_self _
      · obtain ⟨notId, notOther⟩ := was.apart e
        refine ⟨m, notId, notOther, fun k layer => ?_⟩
        refine reaches_track.mpr ⟨before, was.there, was.net, ?_, was.layers ▸ layer⟩
        exact (Track.hasEndAt_iff_side was_side).mpr (.inl was.place)
    · rw [zoneUnder?, zoneAt?, zones] at noZone
      rwa [zoneUnder?, zoneAt?, was.place, was.layerPair, was.net]
  | @atVia v via free' ne sameNet place shares dead =>
    obtain ⟨live, through, viaFree, lonely, noZone⟩ := dead
    obtain ⟨notId, notOther, thereV⟩ := via_before_merge meet live (isThroughVia_isVia through)
    have notM : v ≠ m := by
      rintro rfl
      rcases mergedName_eq_track was.name with same | ⟨_, same⟩
      · exact ne (Conductor.track.inj same)
      · exact notOther (Conductor.track.inj same)
    rw [PadFree, pads] at viaFree
    rw [zoneUnder?, zoneAt?, zones] at noZone
    refine .atVia (padFree free') notM (sameNet.trans was.net.symm) (place.trans was.place.symm) ?_
      ⟨thereV, through, viaFree, fun x k layer reaches => ?_, noZone⟩
    · rwa [Track.sharesLayer, was.layers]
    · have listed := lonely.before_merge meet free (fun _ => ?_) layer reaches
      · rw [place, sameNet] at reaches
        simp only [List.mem_cons, List.not_mem_nil, or_false] at listed ⊢
        rcases listed with name | name
        · exact .inl (was.only x k reaches name)
        · rcases mergedName_eq_track name with same | ⟨same, _⟩
          · exact .inr same
          · exact absurd same notId
      · refine ⟨v, notId, notOther, fun k layer => ?_⟩
        exact reaches_track.mpr ⟨via, thereV, rfl, Track.hasEndAt_iff.mpr (.inl rfl), layer⟩

theorem endWas_elsewhere (meet : b.Junction id side other t u)
    (live : (b.mergedAt id side other t u).track? n = some s) (notId : n ≠ id)
    (at_side : Side) : b.EndWas id other (t.point side) n s at_side n s at_side := by
  rw [track?_mergedAt meet, if_neg notId] at live
  split at live
  · cases live
  · next notOther =>
    refine ⟨live, rfl, rfl, rfl, rfl, by simp [mergedName, notOther], fun x k _ same => ?_,
      fun _ => ⟨notId, notOther⟩⟩
    rcases mergedName_eq_track same with e | ⟨e, _⟩
    · exact e
    · exact absurd e notId

/-! The stretched trace has the far end of the other one, and its own other end. Neither is the
junction, and they are two points, since both traces have extent and their ends differ. -/

theorem point_ne_opposite (no_null : b.NoNull) (there : b.track? id = some t)
    (trace : t.isTrace = true) (side : Side) : t.point side ≠ t.point side.opposite := by
  intro closed
  have null := Track.isNull_of_closed trace closed
  rw [no_null id t there] at null
  cases null

theorem endWas_far (meet : b.Junction id side other t u) (ends : t.sameEnds u = false)
    (no_null : b.NoNull) :
    ∃ far, b.EndWas id other (t.point side) id
      (t.setPoint (Run.farEnd u (t.point side)) side) side other u far := by
  obtain ⟨far, atFar, atNear⟩ := meet.exists_far
  have away := point_ne_opposite no_null meet.thereOther meet.isTrace.2 far
  rw [atFar, atNear] at away
  have place := Track.point_setPoint t (Run.farEnd u (t.point side)) side
  refine ⟨far, meet.thereOther, ?_, ?_, ?_, ?_, ?_, ?_, ?_⟩
  · rw [Track.net_setPoint, meet.net]
  · rw [place, atFar]
  · rw [Track.layers_setPoint, meet.layers]
  · rw [Track.layerPair_of_isTrace meet.isTrace.2, Track.layerPair_of_isTrace
      ((Track.isTrace_setPoint t _ side).trans meet.isTrace.1), Track.layer_setPoint, meet.layer]
  · rw [mergedName, if_pos rfl]
  · intro x k reaches same
    rcases mergedName_eq_track same with rfl | ⟨_, e⟩
    · obtain ⟨t', there, _, ends', _⟩ := reaches_track.mp reaches
      cases meet.there.symm.trans there
      rw [place, Track.hasEndAt_iff_side side] at ends'
      rcases ends' with e | e
      · exact absurd e.symm away
      · exact absurd e.symm (meet.ne_far ends)
    · exact e
  · exact fun e => absurd (place.symm.trans e) away

theorem endWas_near (meet : b.Junction id side other t u) (ends : t.sameEnds u = false)
    (no_null : b.NoNull) :
    b.EndWas id other (t.point side) id (t.setPoint (Run.farEnd u (t.point side)) side)
      side.opposite id t side.opposite := by
  obtain ⟨far, atFar, atNear⟩ := meet.exists_far
  have away := point_ne_opposite no_null meet.there meet.isTrace.1 side
  have place := Track.point_opposite_setPoint t (Run.farEnd u (t.point side)) side
  refine ⟨meet.there, ?_, ?_, ?_, ?_, ?_, ?_, ?_⟩
  · rw [Track.net_setPoint]
  · rw [place]
  · rw [Track.layers_setPoint]
  · rw [Track.layerPair_of_isTrace meet.isTrace.1, Track.layerPair_of_isTrace
      ((Track.isTrace_setPoint t _ side).trans meet.isTrace.1), Track.layer_setPoint]
  · simp [mergedName, meet.ne.symm]
  · intro x k reaches same
    rcases mergedName_eq_track same with e | ⟨_, rfl⟩
    · exact e
    · obtain ⟨u', there, _, ends', _⟩ := reaches_track.mp reaches
      cases meet.thereOther.symm.trans there
      rw [place, Track.hasEndAt_iff_side far, atFar, atNear] at ends'
      rcases ends' with e | e
      · exact absurd e (meet.ne_far ends)
      · exact absurd e away
  · exact fun e => absurd (place.symm.trans e).symm away

theorem exists_endWas (meet : b.Junction id side other t u) (ends : t.sameEnds u = false)
    (no_null : b.NoNull) (live : (b.mergedAt id side other t u).track? n = some s)
    (at_side : Side) :
    ∃ m before was_side, b.EndWas id other (t.point side) n s at_side m before was_side := by
  by_cases isId : n = id
  · subst isId
    rw [track?_mergedAt meet, if_neg meet.ne.symm, if_pos rfl] at live
    cases live
    by_cases e : at_side = side
    · subst e
      obtain ⟨far, was⟩ := endWas_far meet ends no_null
      exact ⟨other, u, far, was⟩
    · rw [Side.eq_opposite_of_ne e]
      exact ⟨n, t, side.opposite, endWas_near meet ends no_null⟩
  · exact ⟨n, s, at_side, endWas_elsewhere meet live isId at_side⟩

/-! ## Runs -/

/-- The log tells of a copy of the net that was taken away, with an end at the point. -/
def CopyWent (cs : List Change) (net : UInt32) (p : Point) : Prop :=
  ∃ i u reason, TakesAway cs i u reason ∧
    (reason = .duplicateTrack ∨ reason = .mergedCollinear) ∧ u.net = net ∧ u.hasEndAt p = true

/-- An end that is loose after a move of the segment pass was loose before, as the end of this track
or of the one that it was merged with, unless a copy went there. -/
theorem Move.loose_before (move : Move o.segmentsOnly b cs c) (straight : b.StraightVias)
    (no_null : o.mergeSegments = true → b.NoNull) (live : c.track? n = some s)
    (loose : c.Loose n s side) :
    (∃ m before was_side, b.track? m = some before ∧ b.Loose m before was_side ∧
      before.net = s.net ∧ before.point was_side = s.point side) ∨
    ∃ i u reason, cs = [.removed i u reason] ∧
      (reason = .duplicateTrack ∨ reason = .mergedCollinear) ∧ u.net = s.net ∧
        u.hasEndAt (s.point side) = true := by
  cases move with
  | mend there bad =>
    rw [straight _ _ there] at bad
    cases bad
  | @leave i u reason there why =>
    have copy : reason = .duplicateTrack ∨ reason = .mergedCollinear := by
      cases why with
      | null on null =>
        rcases on with on | on
        · rw [no_null on i u there] at null
          cases null
        · cases on
      | stacked on | onPad on | short on | loose on => cases on
      | copy => exact .inl rfl
      | overlapped => exact .inr rfl
    by_cases here : u.net = s.net ∧ u.hasEndAt (s.point side) = true
    · exact .inr ⟨i, u, reason, rfl, copy, here.1, here.2⟩
    · have was := (track?_of_remove live).2
      exact .inl ⟨n, s, side, was, loose.before_remove there here, rfl, rfl⟩
  | merge on meet ends line free =>
    obtain ⟨m, before, was_side, was⟩ := exists_endWas meet ends (no_null on) live side
    exact .inl ⟨m, before, was_side, was.there, loose.before_merge meet free was, was.net, was.place⟩

theorem Moves.loose_before (moves : Moves o.segmentsOnly b cs c) (straight : b.StraightVias)
    (no_null : o.mergeSegments = true → b.NoNull) (live : c.track? n = some s)
    (loose : c.Loose n s side) :
    (∃ m before was_side, b.track? m = some before ∧ b.Loose m before was_side) ∨
      CopyWent cs s.net (s.point side) := by
  induction moves generalizing n s side with
  | nil => exact .inl ⟨n, s, side, live, loose⟩
  | @snoc cs ds c d before last ih =>
    have straightMid := stable_straightVias.moves before straight
    have no_nullMid (on : o.mergeSegments = true) := stable_noNull.moves before (no_null on)
    rcases last.loose_before straightMid no_nullMid live loose with
      ⟨m, track, was_side, there, was, net, place⟩ | ⟨i, u, reason, rfl, copy, net, ends⟩
    · rcases ih there was with old | ⟨i, u, reason, taken, facts⟩
      · exact .inl old
      · rw [net, place] at facts
        exact .inr ⟨i, u, reason, taken.append ds, facts⟩
    · exact .inr ⟨i, u, reason, ⟨cs, [], rfl, before.last_removal straight⟩, copy, net, ends⟩

theorem Moves.segmentsOnly_off (moves : Moves o.segmentsOnly b cs c) (straight : b.StraightVias)
    (off : o.mergeSegments = false) : cs = [] := by
  have none_on : o.segmentsOnly.mergeSegments ≠ true := by simp [Options.segmentsOnly, off]
  cases moves with
  | nil => rfl
  | snoc before last =>
    cases last with
    | mend there bad =>
      rw [stable_straightVias.moves before straight _ _ there] at bad
      cases bad
    | merge on => exact absurd on none_on
    | leave there why =>
      cases why with
      | null on =>
        rcases on with on | on
        · exact absurd on none_on
        · cases on
      | copy on | overlapped on => exact absurd on none_on
      | stacked on | onPad on | short on | loose on => cases on

theorem dangles_build (b : Board) (id : Nat) :
    dangles (Contacts.build b) b id = dangles Scan.mk b id :=
  (Run.start_fresh b Observer.silent ()).dangles_eq id

/-- A cleaning comes to a board on which nothing dangles, and then cleans segments once more, if
segments are to be cleaned at all. What dangles in the end has an end where a copy went by then. -/
theorem clean_reopens (b : Board) (o : Options) (on : o.deleteDangling = true)
    (copper : b.CopperVias) :
    let c := (b.clean o).board
    ∃ early late d, (b.clean o).changes = early ++ late ∧ Moves o b early d ∧
      Moves o.segmentsOnly d late c ∧ (o.mergeSegments = false → late = []) ∧
      (∀ id, dangles (Contacts.build d) d id = false) ∧
      ∀ id, dangles (Contacts.build c) c id = true →
        ∃ t side, c.track? id = some t ∧ CopyWent late t.net (t.point side) := by
  simp only [dangles_build]
  rw [clean_board, clean_changes]
  generalize hr : (Run.start b Observer.silent () : Run Contacts Unit) = r
  have board : r.board = b := hr ▸ rfl
  have empty : r.log = [] := hr ▸ rfl
  have coherent : r.Coherent := hr ▸ (Run.start_fresh b Observer.silent ()).coherent
  have enabled : o.anyEnabled = true := by simp [Options.anyEnabled, on]
  have toShorts : Run.Goes o r (Run.afterShorts o r) := (Run.goes_afterEnds coherent).trans
    (((Run.goes_afterVias r id).trans (Run.goes_afterSegments r id id)).trans
      (Run.goes_afterShorts r id))
  obtain ⟨s, toS, connected, again⟩ := Run.afterDangling_on (p := o.segmentsOnly) on id r
  obtain ⟨early, earlyLog, first⟩ := (toShorts.trans toS).moves
  obtain ⟨late, lateLog, second⟩ := again.moves
  rw [empty, List.nil_append] at earlyLog
  rw [board] at first
  have straight : s.board.StraightVias :=
    toS.keeps stable_straightVias (Run.straight_afterShorts o r)
  have no_null (merges : o.mergeSegments = true) : s.board.NoNull :=
    ((Run.goes_afterShorts r id).trans toS).keeps stable_noNull
      (Run.afterSegments_noNull (.inl merges) r)
  rw [Run.cleanup_fst enabled]
  refine ⟨early, late, s.board, by rw [lateLog, earlyLog], first, second,
    second.segmentsOnly_off straight, connected, fun id open_end => ?_⟩
  have straightEnd := stable_straightVias.moves second straight
  obtain ⟨t, there⟩ := exists_track_of_dangles open_end
  obtain ⟨side, loose⟩ := exists_loose straightEnd there open_end
  rcases second.loose_before straight no_null there loose with ⟨m, before, was_side, live, was⟩ | went
  · have dangling := was.dangles (stable_copperVias.moves first copper) live
    rw [connected m] at dangling
    cases dangling
  · exact ⟨t, side, there, went⟩

/-- A bar in two pieces, a wider trace along all of it, and a trace that leads nowhere. -/
def doubledBar : Board :=
  let trace (uuid : String) (width : Int64) (start stop : Point) : Option Track :=
    some ⟨uuid, start, stop, width, .front, 1, .trace⟩
  { slots := [trace "a" 200 ⟨0, 0⟩ ⟨10, 0⟩, trace "b" 200 ⟨10, 0⟩ ⟨20, 0⟩,
      trace "c" 300 ⟨0, 0⟩ ⟨20, 0⟩, trace "d" 200 ⟨50, 50⟩ ⟨60, 60⟩] }

theorem clean_reopens_doubledBar :
    let c := (doubledBar.clean {}).board
    ({} : Options).deleteDangling = true ∧ doubledBar.CopperVias ∧
      ∃ early late d, (doubledBar.clean {}).changes = early ++ late ∧
        Moves {} doubledBar early d ∧ Moves (Options.segmentsOnly {}) d late c ∧
        (({} : Options).mergeSegments = false → late = []) ∧
        (∀ id, dangles (Contacts.build d) d id = false) ∧
        ∀ id, dangles (Contacts.build c) c id = true →
          ∃ t side, c.track? id = some t ∧ CopyWent late t.net (t.point side) := by
  have traces : ∀ id t, doubledBar.track? id = some t → t.shape = .trace :=
    forall_track?_iff.mpr (by decide)
  have copper : doubledBar.CopperVias := by
    intro id t span there shape
    rw [traces id t there] at shape
    cases shape
  exact ⟨rfl, copper, clean_reopens doubledBar {} rfl copper⟩

/-- The pieces become one trace while the other one holds its ends; then the other one goes as its
copy. -/
theorem clean_leaves_open :
    ¬ ∀ (b : Board) (o : Options), o.deleteDangling = true →
      ∀ id, dangles (Contacts.build (b.clean o).board) (b.clean o).board id = false := by
  intro all
  have connected := all doubledBar {} rfl 0
  have open_end : dangles (Contacts.build (doubledBar.clean {}).board) (doubledBar.clean {}).board 0
      = true := by decide +kernel
  rw [open_end] at connected
  cases connected

end Board
end CopperTidy
