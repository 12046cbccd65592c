import CopperTidy.Proofs.Merging
import CopperTidy.Proofs.Nets.Part
import CopperTidy.Proofs.Pruning
import CopperTidy.Proofs.Renaming.Cleaned

/-! # A run and its part of one net

Two runs, one on a whole board and one on the tracks of a net. When the turn of a track of the net
comes, both do the same and log the same. When the turn of another track comes, the second run does
not know it, and the first one changes and logs what is not of the net. So a pass that goes by one
option only does to the net on the whole board what it does to the net alone. Bounds on loops are the
one thing that is shared: the whole board has more tracks, but no bound is ever reached.
-/

namespace CopperTidy
set_option autoImplicit false

/-- Is the change one of a track of the net? -/
def Change.concerns (net : UInt32) (c : Change) : Bool := c.before.net == net

namespace Run

variable {σ τ : Type} {own : Nat → Bool} {net : UInt32}

/-- The second run has the net's part of the board and of the log of the first one. -/
structure Beside (own : Nat → Bool) (net : UInt32) (r : Run Scan σ) (s : Run Scan τ) : Prop where
  board : r.board.Part own net s.board
  log : s.log = r.log.filter (·.concerns net)

variable {r : Run Scan σ} {s : Run Scan τ} {id : Nat}

namespace Beside

/-! ## Single changes -/

theorem removeTrack (h : Beside own net r s) (reason : Reason) (owned : own id = true) :
    Beside own net (r.removeTrack reason id) (s.removeTrack reason id) := by
  unfold Run.removeTrack
  rw [h.board.mine owned]
  cases there : r.board.track? id with
  | none => exact h
  | some t =>
    have mine := h.board.net_eq owned there
    refine ⟨h.board.remove id, ?_⟩
    simp [h.log, Change.concerns, Change.before, mine]

theorem removeTrack_foreign (h : Beside own net r s) (reason : Reason) (other : own id = false) :
    Beside own net (r.removeTrack reason id) s := by
  unfold Run.removeTrack
  cases there : r.board.track? id with
  | none => exact h
  | some t =>
    have foreign := h.board.foreign other there
    refine ⟨h.board.remove_foreign other, ?_⟩
    simp [h.log, Change.concerns, Change.before, foreign]

theorem absorbTrack (h : Beside own net r s) (reason : Reason) (survivor : Nat)
    (owned : own id = true) :
    Beside own net (r.absorbTrack reason survivor id) (s.absorbTrack reason survivor id) := by
  obtain ⟨seen, absorbed⟩ := absorbTrack_eq r reason survivor id
  obtain ⟨seen', absorbed'⟩ := absorbTrack_eq s reason survivor id
  obtain ⟨board, log⟩ := h.removeTrack reason owned
  rw [absorbed, absorbed']
  exact ⟨board, log⟩

theorem absorbTrack_foreign (h : Beside own net r s) (reason : Reason) (survivor : Nat)
    (other : own id = false) : Beside own net (r.absorbTrack reason survivor id) s := by
  obtain ⟨seen, absorbed⟩ := absorbTrack_eq r reason survivor id
  obtain ⟨board, log⟩ := h.removeTrack_foreign reason other
  rw [absorbed]
  exact ⟨board, log⟩

theorem modifyTrack (h : Beside own net r s) (owned : own id = true) {edit : Track → Track}
    (same : ∀ t, (edit t).net = t.net) :
    Beside own net (r.modifyTrack edit id) (s.modifyTrack edit id) := by
  unfold Run.modifyTrack
  rw [h.board.mine owned]
  cases there : r.board.track? id with
  | none => exact h
  | some t =>
    have mine := h.board.net_eq owned there
    refine ⟨h.board.modify owned same, ?_⟩
    simp [h.log, Change.concerns, Change.before, mine]

theorem modifyTrack_foreign (h : Beside own net r s) (other : own id = false)
    {edit : Track → Track} (same : ∀ t, (edit t).net = t.net) :
    Beside own net (r.modifyTrack edit id) s := by
  unfold Run.modifyTrack
  cases there : r.board.track? id with
  | none => exact h
  | some t =>
    have foreign := h.board.foreign other there
    refine ⟨h.board.modify_foreign other same, ?_⟩
    simp [h.log, Change.concerns, Change.before, foreign]

/-! ## Loops -/

/-- A loop over ids beside the loop over those of the net. -/
theorem foldl {step : Run Scan σ → Nat → Run Scan σ} {step' : Run Scan τ → Nat → Run Scan τ}
    (both : ∀ (r : Run Scan σ) (s : Run Scan τ) id, Beside own net r s → own id = true →
      Beside own net (step r id) (step' s id))
    (alone : ∀ (r : Run Scan σ) (s : Run Scan τ) id, Beside own net r s → own id = false →
      Beside own net (step r id) s)
    (h : Beside own net r s) (ids : List Nat) :
    Beside own net (ids.foldl step r) ((ids.filter own).foldl step' s) := by
  induction ids generalizing r s with
  | nil => exact h
  | cons id rest ih =>
    cases owner : own id with
    | true =>
      rw [List.filter_cons_of_pos owner]
      exact ih (both r s id h owner)
    | false =>
      rw [List.filter_cons_of_neg (by simp [owner])]
      exact ih (alone r s id h owner)

theorem forEach {step : Run Scan σ → Nat → Run Scan σ × Bool}
    {step' : Run Scan τ → Nat → Run Scan τ × Bool}
    (both : ∀ (r : Run Scan σ) (s : Run Scan τ) id, Beside own net r s → own id = true →
      Beside own net (step r id).1 (step' s id).1)
    (alone : ∀ (r : Run Scan σ) (s : Run Scan τ) id, Beside own net r s → own id = false →
      Beside own net (step r id).1 s)
    (h : Beside own net r s) (ids : List Nat) :
    Beside own net (Run.forEach step r ids).1 (Run.forEach step' s (ids.filter own)).1 := by
  have fst {ι : Type} (step : Run Scan ι → Nat → Run Scan ι × Bool) (q : Run Scan ι)
      (ids : List Nat) :
      (Run.forEach step q ids).1 = ids.foldl (fun q id => (step q id).1) q := by
    induction ids generalizing q with
    | nil => rfl
    | cons id rest ih => exact ih (step q id).1
  rw [fst, fst]
  exact h.foldl both alone ids

theorem removals (h : Beside own net r s) (reason : Reason) (ids : List Nat) :
    Beside own net (ids.foldl (Run.removeTrack reason) r)
      ((ids.filter own).foldl (Run.removeTrack reason) s) := by
  refine h.foldl (fun _ _ id h owned => ?_) (fun _ _ id h other => ?_) ids
  · exact h.removeTrack reason owned
  · exact h.removeTrack_foreign reason other

/-! ## Vias and null segments -/

theorem normalizeVia (h : Beside own net r s) (owned : own id = true) :
    Beside own net (r.normalizeVia id) (s.normalizeVia id) := by
  obtain ⟨board, log⟩ : Beside own net (r.modifyTrack (fun t => { t with stop := t.start }) id)
    (s.modifyTrack (fun t => { t with stop := t.start }) id) := h.modifyTrack owned fun _ => rfl
  exact ⟨board, log⟩

theorem normalizeVia_foreign (h : Beside own net r s) (other : own id = false) :
    Beside own net (r.normalizeVia id) s := by
  obtain ⟨board, log⟩ : Beside own net (r.modifyTrack (fun t => { t with stop := t.start }) id) s :=
    h.modifyTrack_foreign other fun _ => rfl
  exact ⟨board, log⟩

theorem normalizeVias (h : Beside own net r s) :
    Beside own net r.normalizeVias.1 s.normalizeVias.1 := by
  unfold Run.normalizeVias
  simp only [h.board.ids_filter]
  refine h.foldl (fun _ _ id h owned => ?_) (fun _ _ id h other => ?_) _
  · exact h.normalizeVia owned
  · exact h.normalizeVia_foreign other

theorem deleteNullSegments (h : Beside own net r s) :
    Beside own net r.deleteNullSegments.1 s.deleteNullSegments.1 := by
  unfold Run.deleteNullSegments
  simp only [h.board.ids_filter]
  exact h.removals .nullSegment _

/-! ## Copies -/

theorem absorptions (h : Beside own net r s) (survivor : Nat) (ids : List Nat) :
    Beside own net (ids.foldl (Run.absorbTrack .duplicateTrack survivor) r)
      ((ids.filter own).foldl (Run.absorbTrack .duplicateTrack survivor) s) := by
  refine h.foldl (fun _ _ id h owned => ?_) (fun _ _ id h other => ?_) ids
  · exact h.absorbTrack .duplicateTrack survivor owned
  · exact h.absorbTrack_foreign .duplicateTrack survivor other

theorem own_copiesOf (h : Beside own net r s) {t : Track} (there : r.board.track? id = some t)
    {copy : Nat} (listed : copy ∈ copiesOf r.board id t) : own copy = own id := by
  obtain ⟨_, u, live, same, _⟩ := of_mem_copiesOf listed
  exact h.board.own_eq there live same.symm

theorem removeCopies (h : Beside own net r s) (owned : own id = true) :
    Beside own net (r.removeCopies id).1 (s.removeCopies id).1 := by
  unfold Run.removeCopies
  rw [h.board.mine owned]
  cases there : r.board.track? id with
  | none => exact h
  | some t =>
    have gone := h.absorptions id (copiesOf r.board id t)
    rw [List.filter_eq_self.mpr fun copy listed => (h.own_copiesOf there listed).trans owned] at gone
    simp only [h.board.copiesOf owned there]
    exact gone

theorem removeCopies_foreign (h : Beside own net r s) (other : own id = false) :
    Beside own net (r.removeCopies id).1 s := by
  unfold Run.removeCopies
  cases there : r.board.track? id with
  | none => exact h
  | some t =>
    have gone := h.absorptions id (copiesOf r.board id t)
    rw [List.filter_eq_nil_iff.mpr fun copy listed => by
      rw [h.own_copiesOf there listed, other]
      exact Bool.false_ne_true] at gone
    exact gone

end Beside

/-! ## Merges -/

/-- Two steps that lead to runs side by side, and tell the same. -/
structure AgreeBeside (own : Nat → Bool) (net : UInt32) (first : Run Scan σ × Bool)
    (second : Run Scan τ × Bool) : Prop where
  run : Beside own net first.1 second.1
  told : second.2 = first.2

theorem AgreeBeside.exists_flag {first : Run Scan σ × Bool} {second : Run Scan τ × Bool}
    (h : AgreeBeside own net first second) :
    ∃ r s changed, first = (r, changed) ∧ second = (s, changed) ∧ Beside own net r s :=
  ⟨first.1, second.1, first.2, rfl, congrArg (second.1, ·) h.told, h.run⟩

namespace Beside

theorem idle (h : Beside own net r s) (changed : Bool) :
    AgreeBeside own net (r, changed) (s, changed) := ⟨h, rfl⟩

/-- What is attached to a track is of its net. -/
theorem own_attached (h : Beside own net r s) {other : Nat} {side : Side}
    (listed : other ∈ r.attached id side) : own other = own id := by
  obtain ⟨t, u, there, live, _, _, _, same⟩ := Board.mem_attached.mp listed
  exact h.board.own_eq there live same

theorem mergePair (h : Beside own net r s) {candidate : Nat} (owned : own id = true)
    (owned' : own candidate = true) (side : Side) :
    AgreeBeside own net (r.mergePair id candidate side) (s.mergePair id candidate side) := by
  have pads : ContactSource.onPad s.contacts s.board id side =
      ContactSource.onPad r.contacts r.board id side := h.board.onPad owned side
  unfold Run.mergePair
  rw [h.board.mine owned, h.board.mine owned', pads]
  cases r.board.track? id with
  | none => exact h.idle false
  | some t =>
    cases r.board.track? candidate with
    | none => exact h.idle false
    | some u =>
      simp only
      split
      · exact h.idle false
      split
      · exact (h.absorbTrack .mergedCollinear id owned').idle true
      split
      · exact h.idle false
      · have stretched : Beside own net
            (r.modifyTrack (fun v => v.setPoint (farEnd u (t.point side)) side) id)
            (s.modifyTrack (fun v => v.setPoint (farEnd u (t.point side)) side) id) :=
          h.modifyTrack owned fun v => Track.net_setPoint v _ side
        exact (stretched.absorbTrack .mergedCollinear id owned').idle true

theorem mergePair_foreign (h : Beside own net r s) {candidate : Nat} (other : own id = false)
    (other' : own candidate = false) (side : Side) :
    Beside own net (r.mergePair id candidate side).1 s := by
  unfold Run.mergePair
  cases r.board.track? id with
  | none => exact h
  | some t =>
    cases r.board.track? candidate with
    | none => exact h
    | some u =>
      simp only
      split
      · exact h
      split
      · exact h.absorbTrack_foreign .mergedCollinear id other'
      split
      · exact h
      · have stretched : Beside own net
            (r.modifyTrack (fun v => v.setPoint (farEnd u (t.point side)) side) id) s :=
          h.modifyTrack_foreign other fun v => Track.net_setPoint v _ side
        exact stretched.absorbTrack_foreign .mergedCollinear id other'

theorem mergeAt (h : Beside own net r s) (owned : own id = true) (side : Side) :
    AgreeBeside own net (r.mergeAt id side) (s.mergeAt id side) := by
  have attached : s.attached id side = r.attached id side := h.board.connectedAt owned rfl
  unfold Run.mergeAt
  simp only [refresh_scan, attached]
  split
  · next other only =>
    have listed : other ∈ r.attached id side := only ▸ List.mem_singleton_self other
    exact h.mergePair owned ((h.own_attached listed).trans owned) side
  · exact h.idle false

theorem mergeAt_foreign (h : Beside own net r s) (other : own id = false) (side : Side) :
    Beside own net (r.mergeAt id side).1 s := by
  unfold Run.mergeAt
  simp only [refresh_scan]
  split
  · next candidate only =>
    have listed : candidate ∈ r.attached id side := only ▸ List.mem_singleton_self candidate
    exact h.mergePair_foreign other ((h.own_attached listed).trans other) side
  · exact h

theorem mergeOnce (h : Beside own net r s) (owned : own id = true) :
    AgreeBeside own net (r.mergeOnce id) (s.mergeOnce id) := by
  obtain ⟨p, q, merged, first, second, run⟩ := (h.mergeAt owned .start).exists_flag
  unfold Run.mergeOnce
  rw [first, second]
  cases merged with
  | true => exact run.idle true
  | false => exact run.mergeAt owned .stop

theorem mergeOnce_foreign (h : Beside own net r s) (other : own id = false) :
    Beside own net (r.mergeOnce id).1 s := by
  have first := h.mergeAt_foreign other .start
  unfold Run.mergeOnce
  generalize r.mergeAt id .start = p at first
  obtain ⟨p, merged⟩ := p
  cases merged with
  | true => exact first
  | false => exact mergeAt_foreign first other .stop

theorem mergeUpTo (limit : Nat) (h : Beside own net r s) (owned : own id = true) :
    AgreeBeside own net (Run.mergeUpTo limit r id) (Run.mergeUpTo limit s id) := by
  induction limit generalizing r s with
  | zero => exact h.idle false
  | succ limit ih =>
    obtain ⟨p, q, merged, first, second, run⟩ := (h.mergeOnce owned).exists_flag
    unfold Run.mergeUpTo
    rw [h.board.mine owned, first, second]
    split
    · cases merged with
      | true => exact (ih run).run.idle true
      | false => exact run.idle false
    · exact h.idle false

theorem mergeUpTo_foreign (limit : Nat) (h : Beside own net r s) (other : own id = false) :
    Beside own net (Run.mergeUpTo limit r id).1 s := by
  induction limit generalizing r with
  | zero => exact h
  | succ limit ih =>
    have once := h.mergeOnce_foreign other
    unfold Run.mergeUpTo
    split
    · generalize r.mergeOnce id = p at once
      obtain ⟨p, merged⟩ := p
      cases merged with
      | true => exact ih once
      | false => exact once
    · exact h

end Beside

/-! ## Bounds of loops -/

/-- The run with a snapshot of its board. -/
def withSnapshot (s : Run Scan σ) : Run Contacts σ where
  board := s.board
  contacts := Contacts.build s.board
  log := s.log
  stats := s.stats
  observer := s.observer
  seen := s.seen

theorem scanning_withSnapshot (s : Run Scan σ) : s.withSnapshot.scanning = s := rfl

theorem withSnapshot_coherent (s : Run Scan σ) : s.withSnapshot.Coherent :=
  (rebuild_fresh s.withSnapshot).coherent

theorem mergeUpTo_scan {limit : Nat} (s : Run Scan σ) (id : Nat)
    (enough : s.board.trackCount ≤ limit) : mergeUpTo limit s id = s.mergeAll id := by
  have coherent := s.withSnapshot_coherent
  have bounded := scanning_mergeUpTo limit coherent id
  have all := scanning_mergeUpTo s.board.trackCount coherent id
  rw [mergeUpTo_enough coherent id enough (Nat.le_refl _)] at bounded
  exact bounded.trans all.symm

theorem danglingRounds_enough {limit : Nat} (s : Run Scan σ)
    (enough : s.board.trackCount ≤ limit) :
    (danglingRounds limit s).1.board = s.deleteDangling.1.board ∧
      (danglingRounds limit s).1.log = s.deleteDangling.1.log := by
  have coherent := s.withSnapshot_coherent
  have bounded := scanning_danglingRounds limit coherent
  have all := scanning_danglingRounds s.board.trackCount coherent
  have same := report_danglingRounds coherent enough
  have shown := congrArg Prod.fst same
  rw [scanning_withSnapshot] at bounded all
  rw [bounded, deleteDangling, all]
  exact ⟨congrArg Cleaned.board shown, congrArg Cleaned.changes shown⟩

namespace Beside

theorem mergeAll (h : Beside own net r s) (owned : own id = true) :
    Beside own net (r.mergeAll id).1 (s.mergeAll id).1 := by
  have bounded := h.mergeUpTo r.board.trackCount owned
  rw [mergeUpTo_scan s id h.board.trackCount_le] at bounded
  exact bounded.run

theorem withoutCopies (h : Beside own net r s) :
    Beside own net (Run.forEach Run.removeCopies r r.board.ids).1
      (Run.forEach Run.removeCopies s s.board.ids).1 := by
  rw [h.board.ids]
  refine h.forEach (fun _ _ id h owned => ?_) (fun _ _ id h other => ?_) r.board.ids
  · exact h.removeCopies owned
  · exact h.removeCopies_foreign other

theorem merged (h : Beside own net r s) :
    Beside own net (Run.forEach Run.mergeAll r r.board.ids).1
      (Run.forEach Run.mergeAll s s.board.ids).1 := by
  rw [h.board.ids]
  refine h.forEach (fun _ _ id h owned => ?_) (fun q _ id h other => ?_) r.board.ids
  · exact h.mergeAll owned
  · exact h.mergeUpTo_foreign q.board.trackCount other

theorem cleanSegments (h : Beside own net r s) :
    Beside own net r.cleanSegments.1 s.cleanSegments.1 :=
  h.deleteNullSegments.withoutCopies.merged

/-! ## Dangling tracks -/

/-- The first run may make rounds in which nothing of the net goes; the second one has come to its
end by then. -/
theorem danglingRounds (limit : Nat) (h : Beside own net r s) :
    Beside own net (Run.danglingRounds limit r).1 (Run.danglingRounds limit s).1 := by
  induction limit generalizing r s with
  | zero => exact h
  | succ limit ih =>
    have condemned : s.board.ids.filter (dangles Scan.mk s.board) =
        (r.board.ids.filter (dangles Scan.mk r.board)).filter own := by
      rw [h.board.ids, List.filter_filter, List.filter_filter]
      refine List.filter_congr fun id _ => ?_
      cases owner : own id with
      | true => rw [h.board.dangles owner, Bool.and_comm]
      | false => rw [Bool.and_false, Bool.false_and]
    have round := h.removals .dangling (r.board.ids.filter (dangles Scan.mk r.board))
    rw [← condemned] at round
    have later := ih round
    rw [danglingRounds_scan, danglingRounds_scan]
    generalize r.board.ids.filter (dangles Scan.mk r.board) = all at condemned round later
    cases mine : (s.board.ids.filter (dangles Scan.mk s.board)).isEmpty with
    | false =>
      have some_loose : all.isEmpty = false := by
        cases all with
        | nil => simp [condemned] at mine
        | cons => rfl
      rw [some_loose, if_neg Bool.false_ne_true, if_neg Bool.false_ne_true]
      exact later
    | true =>
      have none_loose := List.isEmpty_iff.mp mine
      have done : (Run.danglingRounds limit s).1 = s := by
        cases limit with
        | zero => rfl
        | succ limit => rw [danglingRounds_scan, mine, if_pos rfl]
      rw [none_loose, List.foldl_nil, done] at later
      rw [if_pos rfl]
      split
      · exact h
      · exact later

theorem deleteDangling (h : Beside own net r s) :
    Beside own net r.deleteDangling.1 s.deleteDangling.1 := by
  obtain ⟨board, log⟩ := h.danglingRounds r.board.trackCount
  obtain ⟨sameBoard, sameLog⟩ := danglingRounds_enough s h.board.trackCount_le
  rw [sameBoard] at board
  rw [sameLog] at log
  exact ⟨board, log⟩

end Beside

/-! ## A whole cleaning -/

/-- Neither vias nor shorts are looked at. -/
theorem cleanup_fst_scan {o : Options} (on : o.anyEnabled = true) (vias : o.cleanVias = false)
    (shorts : o.removeMisconnected = false) (q : Run Scan σ) :
    (q.cleanup o).1 =
      (when o.deleteDangling (danglingPass o) (segmentPass o q.normalizeVias.1).1).1 := by
  rw [cleanup_eq on]
  simp only [when, vias, shorts, Bool.false_eq_true, if_false, rebuild_scan]

namespace Beside

theorem merging (h : Beside own net r s) :
    let o := { Options.none with mergeSegments := true }
    Beside own net (r.cleanup o).1 (s.cleanup o).1 := by
  intro o
  have once {ι : Type} (q : Run Scan ι) : (q.cleanup o).1 = q.normalizeVias.1.cleanSegments.1 := by
    have kept : o.deleteDangling = false := rfl
    rw [cleanup_fst_scan rfl rfl rfl, when, kept, if_neg Bool.false_ne_true, segmentPass, if_pos rfl]
  rw [once, once]
  exact h.normalizeVias.cleanSegments

theorem pruning (h : Beside own net r s) :
    let o := { Options.none with deleteDangling := true }
    Beside own net (r.cleanup o).1 (s.cleanup o).1 := by
  intro o
  have once {ι : Type} (q : Run Scan ι) :
      (q.cleanup o).1 = q.normalizeVias.1.deleteDangling.1 := by
    have unmerged : o.mergeSegments = false := rfl
    have kept : o.removeMisconnected = false := rfl
    rw [cleanup_fst_scan rfl rfl rfl, when, if_pos rfl, segmentPass, unmerged, kept,
      if_neg Bool.false_ne_true, if_neg Bool.false_ne_true, danglingPass_eq, unmerged,
      Bool.and_false, if_neg Bool.false_ne_true, refresh_scan]
  rw [once, once]
  exact h.normalizeVias.deleteDangling

end Beside
end Run

namespace Board

/-- With only merges or only dangling tracks switched on, a cleaning does to a net of a board in the
order of its nets what it does to the net alone: it logs the same changes of it, in the same order,
and leaves the same tracks of it. -/
theorem clean_onNet (b : Board) (sorted : b.NetSorted) (net : UInt32) (o : Options)
    (single : o = { Options.none with mergeSegments := true } ∨
      o = { Options.none with deleteDangling := true }) :
    ((b.onNet net).clean o).changes = (b.clean o).changes.filter (·.concerns net) ∧
      ((b.onNet net).clean o).board.tracks =
        (b.clean o).board.tracks.filter (·.2.net == net) := by
  have start : Run.Beside (fun id => (b.track? id).any (·.net == net)) net
      (Run.start b Observer.silent () : Run Scan Unit)
      (Run.start (b.onNet net) Observer.silent () : Run Scan Unit) := ⟨onNet_part sorted net, rfl⟩
  have cleaned : Run.Beside (fun id => (b.track? id).any (·.net == net)) net
      (Run.cleanup o (Run.start b Observer.silent () : Run Scan Unit)).1
      (Run.cleanup o (Run.start (b.onNet net) Observer.silent () : Run Scan Unit)).1 := by
    rcases single with rfl | rfl
    · exact start.merging
    · exact start.pruning
  rw [Renaming.clean_eq_scan, Renaming.clean_eq_scan]
  refine ⟨cleaned.log, cleaned.board.tracks_eq.trans (List.filter_congr fun (id, t) live => ?_)⟩
  rw [Bool.eq_iff_iff, cleaned.board.nets id t (mem_tracks.mp live), beq_iff_eq]

/-- Two traces of a net in line, and where they meet a trace of another net, with a copy. -/
def crossing : Board :=
  let trace (uuid : String) (start stop : Point) (net : UInt32) : Option Track :=
    some ⟨uuid, start, stop, 200, .front, net, .trace⟩
  { slots := [trace "a" ⟨0, 0⟩ ⟨10, 0⟩ 1, trace "b" ⟨10, 0⟩ ⟨20, 0⟩ 1,
      trace "c" ⟨10, 0⟩ ⟨10, 10⟩ 2, trace "d" ⟨10, 10⟩ ⟨10, 0⟩ 2] }

theorem clean_onNet_crossing :
    let o := { Options.none with mergeSegments := true }
    crossing.NetSorted ∧ (crossing.clean o).changes.length = 3 ∧
      (crossing.onNet 1).ids = [0, 1] ∧
      ((crossing.onNet 1).clean o).changes =
        (crossing.clean o).changes.filter (·.concerns 1) ∧
      ((crossing.onNet 1).clean o).board.tracks =
        (crossing.clean o).board.tracks.filter (·.2.net == 1) := by
  intro o
  have sorted : crossing.NetSorted := by
    unfold Board.NetSorted
    decide
  exact ⟨sorted, by decide +kernel, by decide +kernel, clean_onNet crossing sorted 1 o (.inl rfl)⟩

end Board
end CopperTidy
