import CopperTidy.Proofs.Tidy

/-! # Cleaning twice

A second cleaning finds nothing to do about malformed vias, needless vias, null traces and contacts
between nets. It may still find work in the passes that look at what the others have left: removing
a short can open a junction, a merge can make a copy, and a copy that goes can leave an end open.
The second cleaning changes nothing just if none of these happened.
-/

namespace CopperTidy
set_option autoImplicit false

namespace Board

/-- Would a merge be made at an end of `id`? -/
def Merges (b : Board) (id : Nat) (side : Side) : Prop :=
  ∃ other t u, b.Junction id side other t u ∧
    (t.sameEnds u = true ∨ t.collinear u = true ∧ b.padsUnder t side = [])

/-- No copies, nothing to merge, nothing dangling. -/
structure Settled (b : Board) : Prop where
  copies : ∀ id t, b.track? id = some t → Run.copiesOf b id t = []
  merges : ∀ id side, ¬ b.Merges id side
  connected : ∀ id, dangles Scan.mk b id = false

end Board

namespace Run

variable {σ : Type} {r : Run Contacts σ}

/-! ## Passes with nothing to do -/

theorem filter_eq_nil_of {b : Board} {condition : Track → Bool}
    (h : ∀ id t, b.track? id = some t → condition t = false) :
    (b.tracks.filter fun entry => condition entry.2) = [] := by
  rw [List.filter_eq_nil_iff]
  rintro ⟨id, t⟩ mem
  simp only
  rw [h id t (Board.mem_tracks.mp mem)]
  exact Bool.false_ne_true

theorem normalizeVias_idle (straight : r.board.StraightVias) : r.normalizeVias = (r, false) := by
  unfold normalizeVias
  rw [filter_eq_nil_of fun id t live => straight id t live]
  rfl

theorem deleteNullSegments_idle (none_null : r.board.NoNull) :
    r.deleteNullSegments = (r, false) := by
  unfold deleteNullSegments
  rw [filter_eq_nil_of fun id t live => none_null id t live]
  rfl

theorem forEach_idle {step : Run Contacts σ → Nat → Run Contacts σ × Bool} {ids : List Nat}
    (each : ∀ id ∈ ids, step r id = (r, false)) : forEach step r ids = (r, false) := by
  induction ids with
  | nil => rfl
  | cons id rest ih =>
    unfold forEach
    rw [each id List.mem_cons_self]
    simp only
    rw [ih fun other mem => each other (List.mem_cons_of_mem id mem)]
    rfl

/-- If every step that reports no change makes none, so does the loop. -/
theorem forEach_unchanged {step : Run Contacts σ → Nat → Run Contacts σ × Bool}
    (honest : ∀ id, (step r id).2 = false → step r id = (r, false)) {ids : List Nat}
    (h : (forEach step r ids).2 = false) : ∀ id ∈ ids, step r id = (r, false) := by
  induction ids with
  | nil => simp
  | cons id rest ih =>
    unfold forEach at h
    simp only [Bool.or_eq_false_iff] at h
    have first := honest id h.1
    rw [first] at h
    intro other mem
    rcases List.mem_cons.mp mem with rfl | mem
    · exact first
    · exact ih h.2 other mem

theorem cleanVia_idle (fresh : r.Fresh) (lone : r.board.LoneVias) (clear : r.board.ClearVias)
    (id : Nat) : r.cleanVia id = (r, false) := by
  unfold cleanVia
  cases there : r.board.track? id with
  | none => rfl
  | some via =>
    simp only
    by_cases through : via.isThroughVia = true
    · have alone : stackedOn r.board id via = [] := by
        rw [List.eq_nil_iff_forall_not_mem]
        intro other mem
        obtain ⟨later, t, there', same⟩ := mem_stackedOn.mp mem
        have := lone id other via t there there' same
        omega
      have offPad : ¬ r.onThroughPad id = true := by
        intro onPad
        obtain ⟨pad, mem, copper, meets⟩ := (fresh.faded.onThroughPad there).mp onPad
        rw [clear id via there through pad mem copper] at meets
        cases meets
      rw [if_pos through, alone, List.foldl_nil, if_neg offPad]
      rfl
    · rw [if_neg through]

theorem cleanVias_idle (fresh : r.Fresh) (lone : r.board.LoneVias) (clear : r.board.ClearVias) :
    r.cleanVias = (r, false) := by
  unfold cleanVias
  rw [fresh.refresh_eq]
  exact forEach_idle fun id _ => cleanVia_idle fresh lone clear id

/-! ## Copies -/

theorem removeCopies_idle (h : ∀ id t, r.board.track? id = some t → copiesOf r.board id t = [])
    (id : Nat) : r.removeCopies id = (r, false) := by
  unfold removeCopies
  cases there : r.board.track? id with
  | none => rfl
  | some t =>
    simp only
    rw [h id t there]
    rfl

theorem copiesOf_of_unchanged {id : Nat} {t : Track} (h : (r.removeCopies id).2 = false)
    (there : r.board.track? id = some t) : copiesOf r.board id t = [] := by
  unfold removeCopies at h
  rw [there] at h
  simpa using h

theorem removeCopies_honest (id : Nat) (h : (r.removeCopies id).2 = false) :
    r.removeCopies id = (r, false) := by
  cases there : r.board.track? id with
  | none => simp [removeCopies, there]
  | some t =>
    have none := copiesOf_of_unchanged h there
    simp [removeCopies, there, none]

/-! ## Merging -/

theorem Fresh.attached_eq (fresh : r.Fresh) (id : Nat) (side : Side) :
    r.attached id side = r.board.attached id side := fresh.connectedAt id side _

theorem Fresh.mergeAt_idle (fresh : r.Fresh) {id : Nat} {side : Side}
    (h : ¬ r.board.Merges id side) : r.mergeAt id side = (r, false) := by
  unfold mergeAt
  rw [fresh.refresh_eq]
  simp only
  split
  · next other only =>
    rw [fresh.attached_eq] at only
    rcases fresh.mergePair_cases only with
      ⟨idle, _⟩ | ⟨t, u, meet, ⟨same, _⟩ | ⟨_, line, free, _⟩⟩
    · exact idle
    · exact absurd ⟨other, t, u, meet, .inl same⟩ h
    · exact absurd ⟨other, t, u, meet, .inr ⟨line, free⟩⟩ h
  · rfl

theorem Fresh.mergeAt_busy (fresh : r.Fresh) {id : Nat} {side : Side}
    (h : r.board.Merges id side) : (r.mergeAt id side).2 = true := by
  obtain ⟨other, t, u, meet, fits⟩ := h
  unfold mergeAt
  rw [fresh.refresh_eq]
  simp only
  rw [fresh.attached_eq, meet.only]
  simp only
  rcases fresh.mergePair_cases meet.only with
    ⟨_, blocked⟩ | ⟨_, _, _, ⟨_, gone⟩ | ⟨_, _, _, stretched⟩⟩
  · exact absurd fits (blocked t u meet)
  · rw [gone]
  · rw [stretched]

theorem Fresh.mergeOnce_idle (fresh : r.Fresh) {id : Nat}
    (h : ∀ side, ¬ r.board.Merges id side) : r.mergeOnce id = (r, false) := by
  unfold mergeOnce
  rw [fresh.mergeAt_idle (h .start)]
  exact fresh.mergeAt_idle (h .stop)

theorem Fresh.mergeOnce_busy (fresh : r.Fresh) {id : Nat} {side : Side}
    (h : r.board.Merges id side) : (r.mergeOnce id).2 = true := by
  unfold mergeOnce
  by_cases first : r.board.Merges id .start
  · have busy := fresh.mergeAt_busy first
    split
    · rfl
    · next s eq =>
      rw [eq] at busy
      cases busy
  · rw [fresh.mergeAt_idle first]
    cases side with
    | start => exact absurd h first
    | stop => exact fresh.mergeAt_busy h

theorem Fresh.mergeAll_idle (fresh : r.Fresh) {id : Nat}
    (h : ∀ side, ¬ r.board.Merges id side) : r.mergeAll id = (r, false) := by
  unfold mergeAll
  cases r.board.trackCount with
  | zero => rfl
  | succ limit =>
    unfold mergeUpTo
    rw [fresh.mergeOnce_idle h]
    split <;> rfl

theorem Fresh.mergeAll_busy (fresh : r.Fresh) {id : Nat} {side : Side}
    (h : r.board.Merges id side) : (r.mergeAll id).2 = true := by
  have busy := fresh.mergeOnce_busy h
  obtain ⟨other, t, u, meet, _⟩ := h
  have some_track := trackCount_pos meet.there
  have trace : (r.board.track? id).any Track.isTrace = true := by
    rw [meet.there]
    exact meet.isTrace.1
  unfold mergeAll
  cases count : r.board.trackCount with
  | zero => omega
  | succ limit =>
    unfold mergeUpTo
    rw [if_pos trace]
    split
    · rfl
    · next s eq =>
      rw [eq] at busy
      cases busy

theorem Fresh.mergeAll_honest (fresh : r.Fresh) (id : Nat) (h : (r.mergeAll id).2 = false) :
    r.mergeAll id = (r, false) := by
  refine fresh.mergeAll_idle fun side merges => ?_
  rw [fresh.mergeAll_busy merges] at h
  cases h

/-! ## The segment pass -/

theorem Fresh.cleanSegments_idle (fresh : r.Fresh) (none_null : r.board.NoNull)
    (copies : ∀ id t, r.board.track? id = some t → copiesOf r.board id t = [])
    (merges : ∀ id side, ¬ r.board.Merges id side) : r.cleanSegments = (r, false) := by
  unfold cleanSegments
  rw [deleteNullSegments_idle none_null]
  simp only
  rw [forEach_idle fun id _ => removeCopies_idle copies id]
  simp only
  rw [forEach_idle fun id _ => fresh.mergeAll_idle (merges id)]
  rfl

theorem Fresh.of_cleanSegments_unchanged (fresh : r.Fresh) (none_null : r.board.NoNull)
    (h : r.cleanSegments.2 = false) :
    (∀ id t, r.board.track? id = some t → copiesOf r.board id t = []) ∧
      ∀ id side, ¬ r.board.Merges id side := by
  unfold cleanSegments at h
  rw [deleteNullSegments_idle none_null] at h
  simp only [Bool.or_eq_false_iff] at h
  have copies := forEach_unchanged removeCopies_honest h.1.2
  have unchanged : forEach removeCopies r r.board.ids = (r, false) := forEach_idle copies
  rw [unchanged] at h
  have merges := forEach_unchanged fresh.mergeAll_honest h.2
  refine ⟨fun id t there => ?_, fun id side fits => ?_⟩
  · have listed : id ∈ r.board.ids := Board.mem_ids.mpr (by rw [there]; rfl)
    exact copiesOf_of_unchanged (by rw [copies id listed]) there
  · have busy := fresh.mergeAll_busy fits
    obtain ⟨other, t, u, meet, _⟩ := fits
    have listed : id ∈ r.board.ids := Board.mem_ids.mpr (by rw [meet.there]; rfl)
    rw [merges id listed] at busy
    cases busy

/-! ## Shorts and dangling tracks -/

theorem shorts_eq_nil {b : Board} (pure : b.NoShort) : shorts (Contacts.build b) b = [] := by
  have spared (entries : List (Nat × Track)) (live : ∀ entry ∈ entries, entry ∈ b.tracks) :
      entries.foldl (condemnShort (Contacts.build b) b) [] = [] := by
    induction entries with
    | nil => rfl
    | cons entry rest ih =>
      obtain ⟨id, t⟩ := entry
      have there := Board.mem_tracks.mp (live (id, t) List.mem_cons_self)
      have pads : touchesForeignPad (Contacts.build b) b id t = false := by
        unfold touchesForeignPad
        rw [Contacts.padsOf_build, List.any_eq_false]
        intro padId under
        simp only [ContactSource.padsOf, there, Option.map_some, Option.getD_some] at under
        obtain ⟨pad, listed, meets⟩ := Board.mem_padsUnderEnds.mp under
        rw [listed, Option.any_some, pure.pads id t there pad (List.mem_of_getElem? listed) meets]
        simp
      have tracks : touchesForeignTrack (Contacts.build b) b [] id t = false := by
        unfold touchesForeignTrack
        rw [Contacts.tracksOf_build, List.any_eq_false]
        intro other touched
        simp only [ContactSource.tracksOf, there, Option.map_some, Option.getD_some] at touched
        obtain ⟨u, live, touches⟩ := Board.mem_ids_filter.mp touched
        simp only [Bool.and_eq_true] at touches
        rw [live, Option.any_some, pure.tracks id other t u there live touches.2]
        simp
      rw [List.foldl_cons]
      unfold condemnShort
      rw [pads, tracks]
      exact ih fun entry mem => live entry (List.mem_cons_of_mem _ mem)
  exact spared b.tracks fun _ mem => mem

theorem removeShorts_idle (pure : r.board.NoShort) : r.removeShorts = (r.rebuild, false) := by
  unfold removeShorts
  simp only
  rw [show shorts r.rebuild.contacts r.rebuild.board = [] from shorts_eq_nil pure]
  rfl

theorem Fresh.shortPass_idle (fresh : r.Fresh) (pure : r.board.NoShort) :
    shortPass r = (r, false) := by
  unfold shortPass
  rw [removeShorts_idle pure, fresh.rebuild_eq]
  rfl

theorem Fresh.deleteDangling_idle (fresh : r.Fresh)
    (connected : ∀ id, dangles Scan.mk r.board id = false) : r.deleteDangling = (r, false) := by
  unfold deleteDangling
  cases r.board.trackCount with
  | zero => rfl
  | succ limit =>
    unfold danglingRounds
    rw [fresh.refresh_eq]
    simp only
    rw [fresh.condemned_eq_nil_iff.mpr connected]
    rfl

theorem Fresh.deleteDangling_busy (fresh : r.Fresh) {id : Nat}
    (h : dangles Scan.mk r.board id = true) : r.deleteDangling.2 = true := by
  have listed := fresh.mem_dangling.mpr h
  obtain ⟨t, there⟩ := Option.isSome_iff_exists.mp (Board.mem_ids.mp (List.mem_filter.mp listed).1)
  have some_track := trackCount_pos there
  unfold deleteDangling
  cases count : r.board.trackCount with
  | zero => omega
  | succ limit =>
    unfold danglingRounds
    rw [fresh.refresh_eq]
    simp only
    split
    · next none =>
      rw [List.isEmpty_iff.mp none] at listed
      cases listed
    · rfl

/-! ## The second cleaning -/

/-- A board that the passes that do not depend on others have nothing to do with. -/
structure Ready (b : Board) : Prop where
  straight : b.StraightVias
  lone : b.LoneVias
  clear : b.ClearVias
  none_null : b.NoNull
  pure : b.NoShort

theorem Fresh.cleanup_of_ready (fresh : r.Fresh) (ready : Ready r.board) :
    cleanup {} r =
      let (s, segments) := r.cleanSegments
      let (s, shorted) := shortPass s
      let (s, dangling) := danglingPass {} s
      (s, segments || shorted || dangling) := by
  unfold cleanup
  rw [if_pos (show ({} : Options).anyEnabled = true from rfl), normalizeVias_idle ready.straight]
  simp only [fresh.rebuild_eq, when, if_true, segmentPass, cleanVias_idle fresh ready.lone ready.clear,
    Bool.false_or]

theorem Fresh.cleanup_idle (fresh : r.Fresh) (ready : Ready r.board) (settled : r.board.Settled) :
    cleanup {} r = (r, false) := by
  rw [fresh.cleanup_of_ready ready,
    fresh.cleanSegments_idle ready.none_null settled.copies settled.merges]
  simp only
  rw [fresh.shortPass_idle ready.pure]
  unfold danglingPass
  rw [fresh.refresh_eq, fresh.deleteDangling_idle settled.connected]
  rfl

theorem Fresh.settled_of_cleanup (fresh : r.Fresh) (ready : Ready r.board)
    (h : (cleanup {} r).2 = false) : r.board.Settled := by
  rw [fresh.cleanup_of_ready ready] at h
  simp only [Bool.or_eq_false_iff] at h
  obtain ⟨copies, merges⟩ := fresh.of_cleanSegments_unchanged ready.none_null h.1.1
  refine ⟨copies, merges, fun id => ?_⟩
  rw [fresh.cleanSegments_idle ready.none_null copies merges] at h
  simp only at h
  rw [fresh.shortPass_idle ready.pure] at h
  have quiet := h.2
  unfold danglingPass at quiet
  rw [fresh.refresh_eq] at quiet
  rw [Bool.eq_false_iff]
  intro loose
  have busy := fresh.deleteDangling_busy loose
  cases eq : r.deleteDangling with
  | mk s changed =>
    rw [eq] at quiet busy
    simp only at quiet busy
    rw [busy] at quiet
    simp at quiet

end Run

namespace Board

theorem clean_ready (b : Board) : Run.Ready (b.clean {}).board := by
  obtain ⟨straight, vias, null, apart⟩ :=
    Run.cleanup_tidy (o := {}) rfl (Run.start b Observer.silent ())
  rw [clean_board]
  exact ⟨straight, (vias rfl).1, (vias rfl).2, null (.inl rfl), apart rfl⟩

theorem clean_settled_iff {c : Board} (ready : Run.Ready c) :
    ((c.clean {}).modified = false ∧ (c.clean {}).changes = [] ∧ (c.clean {}).board = c) ↔
      c.Settled := by
  have fresh : (Run.start c Observer.silent () : Run Contacts Unit).Fresh := Run.start_fresh c _ _
  rw [clean_modified, clean_changes, clean_board]
  constructor
  · rintro ⟨unchanged, _⟩
    exact fresh.settled_of_cleanup ready unchanged
  · intro settled
    rw [fresh.cleanup_idle ready settled]
    exact ⟨rfl, rfl, rfl⟩

/-- The second cleaning reports no change, logs none and makes none, just if the first one has left
no copy, no junction to merge and no open end. -/
theorem clean_clean_iff (b : Board) :
    let c := (b.clean {}).board
    ((c.clean {}).modified = false ∧ (c.clean {}).changes = [] ∧ (c.clean {}).board = c) ↔
      c.Settled := clean_settled_iff b.clean_ready

/-- A bar of two pieces between pads, with a stem to a pad of another net. -/
def stemmed : Board :=
  let trace (uuid : String) (start stop : Point) : Option Track :=
    some ⟨uuid, start, stop, 200, .front, 1, .trace⟩
  let pad (number : String) (net : UInt32) (position : Point) : Pad :=
    ⟨"U1", number, position, net, .single .front, .smd⟩
  { slots := [trace "a" ⟨0, 0⟩ ⟨10, 0⟩, trace "b" ⟨10, 0⟩ ⟨20, 0⟩, trace "c" ⟨10, 0⟩ ⟨10, 10⟩]
    pads := [pad "1" 1 ⟨0, 0⟩, pad "2" 1 ⟨20, 0⟩, pad "3" 2 ⟨10, 10⟩] }

/-- The stem keeps the bar from being merged until it goes as a short, after the segment pass. -/
theorem clean_clean_stemmed :
    let c := (stemmed.clean {}).board
    ¬ ((c.clean {}).modified = false ∧ (c.clean {}).changes = [] ∧ (c.clean {}).board = c) := by
  have again : ((stemmed.clean {}).board.clean {}).modified = true := by decide +kernel
  intro c h
  have unchanged : true = false := again.symm.trans h.1
  cases unchanged

end Board
end CopperTidy
