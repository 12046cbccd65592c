import CopperTidy.Proofs.Passes
import CopperTidy.Proofs.Survivors

/-! # What is removed, and why

Every removal that a run logs was a removal from some board on the way, for the reason given. Passes
that are switched off remove nothing, and each reason is for its own kind of track; the exception is
a via that stands on an earlier one of its net, which the segment pass takes for a copy.
-/

namespace CopperTidy
set_option autoImplicit false

/-- May a track of this kind be removed for the reason, with these passes switched on? -/
def Options.permits (o : Options) (t : Track) : Reason → Bool
  | .nullSegment => t.isTrace && (o.mergeSegments || o.removeMisconnected)
  | .duplicateTrack | .mergedCollinear => t.isTrace && o.mergeSegments
  | .duplicateVia | .viaOnThroughPad => t.isThroughVia && o.cleanVias
  | .misConnected => o.removeMisconnected
  | .dangling => o.deleteDangling

namespace Board

variable {o : Options} {b c : Board} {cs : List Change} {id : Nat} {t : Track} {reason : Reason}

/-- A removed track was on a board on the way, and could leave that board. -/
theorem Moves.removal (h : Moves o b cs c) (logged : .removed id t reason ∈ cs) :
    ∃ d before, Moves o b before d ∧ d.track? id = some t ∧
      (d.Leaves o id t reason ∨
        reason = .mergedCollinear ∧ t.isTrace = true ∧ o.mergeSegments = true) := by
  induction h with
  | nil => cases logged
  | snoc before last ih =>
    rcases List.mem_append.mp logged with earlier | now
    · exact ih earlier
    · cases last with
      | mend => simp at now
      | leave there why =>
        cases List.mem_singleton.mp now
        exact ⟨_, _, before, there, .inl why⟩
      | merge on meet =>
        simp only [List.mem_cons, List.not_mem_nil, or_false, reduceCtorEq, false_or,
          Change.removed.injEq] at now
        obtain ⟨rfl, rfl, rfl⟩ := now
        exact ⟨_, _, before, meet.thereOther, .inr ⟨rfl, meet.isTrace.2, on⟩⟩

theorem Leaves.permits (why : b.Leaves o id t reason) :
    o.permits t reason = true ∨
      reason = .duplicateTrack ∧ o.mergeSegments = true ∧ t.isVia = true ∧
        ∃ first s, first < id ∧ b.track? first = some s ∧ s.net = t.net ∧
          s.duplicates t = true := by
  cases why with
  | null on null =>
    left
    simp only [Track.isNull, Bool.and_eq_true] at null
    simpa [Options.permits, null.1] using on
  | stacked on _ _ same =>
    left
    simp only [Track.duplicateVias, Bool.and_eq_true] at same
    simp [Options.permits, on, same.1.2]
  | onPad on through => exact .inl (by simp [Options.permits, on, through])
  | @copy first s on there earlier net same =>
    cases shape : t.shape with
    | trace =>
      have trace : t.isTrace = true := by simp [Track.isTrace, shape]
      exact .inl (by simp [Options.permits, on, trace])
    | arc => simp [Track.duplicates, Track.isArc, shape] at same
    | via =>
      have via : t.isVia = true := by simp [Track.isVia, shape]
      exact .inr ⟨rfl, on, via, first, s, earlier, there, net, same⟩
  | overlapped on meet => exact .inl (by simp [Options.permits, on, meet.isTrace.2])
  | short on => exact .inl on
  | loose on => exact .inl on

/-- On a board whose vias have both ends in one place, vias with the same ends are in one place. -/
theorem start_eq_of_sameEnds {s : Track} (straight : Run.isMalformedVia s = false)
    (via : s.isVia = true) (same : s.sameEnds t = true) : s.start = t.start := by
  have closed := Track.stop_eq_start straight via
  simp only [Track.sameEnds, Bool.or_eq_true, Bool.and_eq_true, beq_iff_eq] at same
  rcases same with ⟨first, _⟩ | ⟨_, last⟩
  · exact first
  · exact closed.symm.trans last

/-- The exception, traced back to the board that the moves began with. -/
theorem Moves.permits (h : Moves o b cs c) (straight : b.StraightVias)
    (logged : .removed id t reason ∈ cs) :
    o.permits t reason = true ∨
      reason = .duplicateTrack ∧ o.mergeSegments = true ∧ t.isVia = true ∧
        ∃ first s, first < id ∧ b.track? first = some s ∧ s.isVia = true ∧ s.net = t.net ∧
          s.layer = t.layer ∧ s.start = t.start := by
  obtain ⟨d, before, moves, there, why | ⟨rfl, trace, on⟩⟩ := h.removal logged
  · rcases why.permits with permitted | ⟨rfl, on, via, first, s, earlier, live, net, same⟩
    · exact .inl permitted
    · have facts := same
      simp only [Track.duplicates, Bool.and_eq_true, beq_iff_eq] at facts
      obtain ⟨⟨⟨_, kinds⟩, layer⟩, ends⟩ := facts
      have viaS : s.isVia = true := kinds.trans via
      obtain ⟨s', was, stretches⟩ := moves.survivor straight live
      have not_trace : s'.isTrace = false :=
        stretches.isTrace.symm.trans (Track.isTrace_of_isVia viaS)
      have unchanged : s = s' := stretches.fixed not_trace
      subst unchanged
      exact .inr ⟨rfl, on, via, first, s, earlier, was, viaS, net, layer,
        start_eq_of_sameEnds (straight first s was) viaS ends⟩
  · exact .inl (by simp [Options.permits, trace, on])

end Board

namespace Run

variable {σ : Type} {o : Options} {r : Run Contacts σ}

/-- Mending vias removes nothing. -/
theorem afterEnds_log (h : r.Coherent) {id : Nat} {t : Track} {reason : Reason}
    (logged : .removed id t reason ∈ (afterEnds r).log) : .removed id t reason ∈ r.log := by
  have goes : Goes .none r (afterEnds r) := goes_afterEnds h
  obtain ⟨cs, log, moves⟩ := goes.moves
  rw [log] at logged
  rcases List.mem_append.mp logged with earlier | now
  · exact earlier
  · obtain ⟨d, _, _, _, why | ⟨_, _, on⟩⟩ := moves.removal now
    · rcases why.permits with permitted | ⟨_, on, _⟩
      · cases reason <;> simp [Options.permits, Options.none] at permitted
      · cases on
    · cases on

theorem track?_afterEnds {id : Nat} {t : Track} (live : (afterEnds r).board.track? id = some t) :
    ∃ t', r.board.track? id = some t' ∧ t = { t' with stop := t.stop } := by
  have live : (List.foldl normalizeVia r _).board.track? id = some t := live
  rw [track?_normalizeVia_foldl] at live
  split at live
  · obtain ⟨t', there, rfl⟩ := Option.map_eq_some_iff.mp live
    exact ⟨t', there, rfl⟩
  · exact ⟨t, live, rfl⟩

end Run

namespace Board

/-- Every removal is permitted, but for a via that goes as a copy of an earlier via of its net, with
the same place and top layer. -/
theorem clean_permits (b : Board) (o : Options) {id : Nat} {t : Track} {reason : Reason}
    (logged : .removed id t reason ∈ (b.clean o).changes) :
    o.permits t reason = true ∨
      reason = .duplicateTrack ∧ o.mergeSegments = true ∧ t.isVia = true ∧
        ∃ first s, first < id ∧ b.track? first = some s ∧ s.isVia = true ∧ s.net = t.net ∧
          s.layer = t.layer ∧ s.start = t.start := by
  rw [clean_changes] at logged
  have coherent := (Run.start_fresh b Observer.silent ()).coherent
  generalize hr : (Run.start b Observer.silent () : Run Contacts Unit) = r at *
  have board : r.board = b := hr ▸ rfl
  have empty : r.log = [] := hr ▸ rfl
  by_cases on : o.anyEnabled = true
  · obtain ⟨cs, log, moves⟩ := (Run.goes_cleanup_mended on r).moves
    rw [log] at logged
    rcases List.mem_append.mp logged with mending | later
    · have earlier := Run.afterEnds_log coherent mending
      rw [empty] at earlier
      cases earlier
    · have straight : (Run.afterEnds r).board.StraightVias := Run.normalizeVias_straight r
      rcases moves.permits straight later with permitted | ⟨rfl, on, via, first, s, earlier, there,
        viaS, facts⟩
      · exact .inl permitted
      · obtain ⟨s', was, same⟩ := Run.track?_afterEnds there
        rw [same] at viaS facts
        exact .inr ⟨rfl, on, via, first, s', earlier, board ▸ was, viaS, facts⟩
  · rw [Run.cleanup, if_neg on, empty] at logged
    cases logged

/-- Two micro vias in one place, on a pad. -/
def microTwins : Board :=
  let via (uuid : String) : Option Track :=
    some (.ofVia uuid ⟨0, 0⟩ 300 1 ⟨.micro, .front, ⟨1⟩, 100⟩)
  { slots := [via "m1", via "m2"]
    pads := [⟨"U1", "1", ⟨0, 0⟩, 1, .single .front, .smd⟩] }

theorem clean_permits_secondTwin :
    let o : Options := { cleanVias := false }
    let t : Track := .ofVia "m2" ⟨0, 0⟩ 300 1 ⟨.micro, .front, ⟨1⟩, 100⟩
    .removed 1 t .duplicateTrack ∈ (microTwins.clean o).changes ∧
      (o.permits t .duplicateTrack = true ∨
        Reason.duplicateTrack = .duplicateTrack ∧ o.mergeSegments = true ∧ t.isVia = true ∧
          ∃ first s, first < 1 ∧ microTwins.track? first = some s ∧ s.isVia = true ∧
            s.net = t.net ∧ s.layer = t.layer ∧ s.start = t.start) := by
  intro o t
  have logged : .removed 1 t .duplicateTrack ∈ (microTwins.clean o).changes := by decide +kernel
  exact ⟨logged, clean_permits microTwins o logged⟩

/-- Stacked vias are to be kept, and micro vias to be left alone; the second twin goes. -/
theorem clean_takes_microVia :
    ¬ ∀ (b : Board) (o : Options) (id : Nat) (t : Track) (reason : Reason),
      .removed id t reason ∈ (b.clean o).changes → o.permits t reason = true := by
  intro all
  have permitted := all microTwins { cleanVias := false } 1
    (.ofVia "m2" ⟨0, 0⟩ 300 1 ⟨.micro, .front, ⟨1⟩, 100⟩) .duplicateTrack (by decide +kernel)
  exact absurd permitted (by decide)

end Board
end CopperTidy
