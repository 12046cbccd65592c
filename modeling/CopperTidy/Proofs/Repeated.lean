import CopperTidy.Proofs.Settled

/-! # Cleaning again without merging

The passes that only take tracks away do not call for each other: what one of them leaves behind
stays so, whatever the later ones remove. Only the segment pass changes ends and takes copies, so
with merging switched off a second cleaning finds nothing to do.
-/

namespace CopperTidy
set_option autoImplicit false

namespace Run

variable {σ : Type} {o : Options} {r : Run Contacts σ}

/-- A board with which the passes that are switched on have nothing to do, merging apart. -/
structure Tidy (o : Options) (b : Board) : Prop where
  straight : b.StraightVias
  vias : o.cleanVias = true → b.LoneVias ∧ b.ClearVias
  none_null : o.removeMisconnected = true → b.NoNull
  apart : o.removeMisconnected = true → b.NoShort
  connected : o.deleteDangling = true → ∀ id, dangles Scan.mk b id = false

/-! ## The second run -/

theorem when_idle {pass : Run Contacts σ → Run Contacts σ × Bool} {on : Bool}
    (idle : on = true → pass r = (r, false)) : when on pass r = (r, false) := by
  cases on with
  | true => exact idle rfl
  | false => rfl

theorem segmentPass_idle (off : o.mergeSegments = false)
    (none_null : o.removeMisconnected = true → r.board.NoNull) : segmentPass o r = (r, false) := by
  have not_merging : ¬ o.mergeSegments = true := Bool.eq_false_iff.mp off
  unfold segmentPass
  rw [if_neg not_merging]
  split
  · next on => exact deleteNullSegments_idle (none_null on)
  · rfl

theorem Fresh.danglingPass_idle (fresh : r.Fresh)
    (connected : ∀ id, dangles Scan.mk r.board id = false) : danglingPass o r = (r, false) := by
  unfold danglingPass
  rw [fresh.refresh_eq, fresh.deleteDangling_idle connected]
  rfl

theorem Fresh.cleanup_of_tidy (fresh : r.Fresh) (off : o.mergeSegments = false)
    (tidy : Tidy o r.board) : cleanup o r = (r, false) := by
  have vias : when o.cleanVias cleanVias r = (r, false) :=
    when_idle fun on => cleanVias_idle fresh (tidy.vias on).1 (tidy.vias on).2
  have segments : segmentPass o r = (r, false) := segmentPass_idle off tidy.none_null
  have shorts : when o.removeMisconnected shortPass r = (r, false) :=
    when_idle fun on => fresh.shortPass_idle (tidy.apart on)
  have dangling : when o.deleteDangling (danglingPass o) r = (r, false) :=
    when_idle fun on => fresh.danglingPass_idle (tidy.connected on)
  by_cases on : o.anyEnabled = true
  · rw [cleanup_eq on, normalizeVias_idle tidy.straight]
    simp only [fresh.rebuild_eq, vias, segments, shorts, dangling, Bool.or_false]
  · unfold cleanup
    rw [if_neg on]

/-! ## The first run -/

/-- Without a merge to follow, the dangling pass ends when nothing dangles. -/
theorem danglingPass_connected (off : o.mergeSegments = false) (h : r.Coherent) (id : Nat) :
    dangles Scan.mk (danglingPass o r).1.board id = false := by
  rw [danglingPass_eq, off, Bool.and_false, if_neg Bool.false_ne_true]
  exact danglingRounds_connected _ h.refresh_fresh.coherent (Nat.le_refl _) id

theorem tidy_cleanup (on : o.anyEnabled = true) (off : o.mergeSegments = false)
    (r : Run Contacts σ) : Tidy o (cleanup o r).1.board := by
  obtain ⟨straight, vias, none_null, apart⟩ := cleanup_tidy on r
  refine ⟨straight, vias, fun shorts => none_null (.inr shorts), apart, fun dangling id => ?_⟩
  rw [cleanup_fst on]
  unfold afterDangling when
  rw [dangling, if_pos rfl]
  exact danglingPass_connected off (coherent_afterShorts o r) id

end Run

namespace Board

/-- With merging switched off, a cleaning leaves a board that a second one with the same options
leaves as it is: it answers that nothing changed, logs nothing and counts nothing. -/
theorem clean_clean_unmerged (b : Board) (o : Options) (off : o.mergeSegments = false) :
    let c := (b.clean o).board
    c.clean o = ⟨false, c, [], {}⟩ := by
  intro c
  have fresh : (Run.start c Observer.silent () : Run Contacts Unit).Fresh := Run.start_fresh c _ _
  have idle : Run.cleanup o (Run.start c Observer.silent () : Run Contacts Unit) =
      (Run.start c Observer.silent (), false) := by
    by_cases on : o.anyEnabled = true
    · refine fresh.cleanup_of_tidy off ?_
      show Run.Tidy o c
      rw [show c = (b.clean o).board from rfl, clean_board]
      exact Run.tidy_cleanup on off _
    · unfold Run.cleanup
      rw [if_neg on]
  rw [clean_eq, idle]
  rfl

/-- A via whose end is off its start, a second via on it, a null trace, two traces that short two
nets, and a row of traces that leads nowhere. Beside them two traces run in a line from pad to pad,
and only a merge would take one of those. -/
def overgrown : Board :=
  let trace (uuid : String) (net : UInt32) (start stop : Point) : Option Track :=
    some ⟨uuid, start, stop, 200, .front, net, .trace⟩
  let via (uuid : String) (start stop : Point) : Option Track :=
    some ⟨uuid, start, stop, 600, .front, 1, .via (.through 300)⟩
  { slots := [via "a" ⟨0, 0⟩ ⟨5, 5⟩, via "b" ⟨0, 0⟩ ⟨0, 0⟩, trace "c" 1 ⟨0, 0⟩ ⟨10, 0⟩,
      trace "d" 1 ⟨10, 0⟩ ⟨10, 0⟩, trace "e" 2 ⟨10, 0⟩ ⟨20, 0⟩, trace "f" 2 ⟨20, 0⟩ ⟨30, 0⟩,
      trace "g" 2 ⟨30, 0⟩ ⟨40, 0⟩, trace "h" 3 ⟨0, 20⟩ ⟨10, 20⟩, trace "i" 3 ⟨10, 20⟩ ⟨20, 20⟩]
    pads := [⟨"U1", "1", ⟨40, 0⟩, 2, .single .front, .smd⟩,
      ⟨"U1", "2", ⟨0, 20⟩, 3, .single .front, .smd⟩,
      ⟨"U1", "3", ⟨20, 20⟩, 3, .single .front, .smd⟩] }

theorem clean_clean_unmerged_overgrown :
    let o : Options := { mergeSegments := false }
    let c := (overgrown.clean o).board
    o.mergeSegments = false ∧ (overgrown.clean o).modified = true ∧ c.ids = [7, 8] ∧
      c.clean o = ⟨false, c, [], {}⟩ := by
  have changed : (overgrown.clean { mergeSegments := false }).modified = true := by decide +kernel
  have stay : (overgrown.clean { mergeSegments := false }).board.ids = [7, 8] := by decide +kernel
  exact ⟨rfl, changed, stay, clean_clean_unmerged overgrown { mergeSegments := false } rfl⟩

end Board
end CopperTidy
