import CopperTidy.Proofs.Lockstep
import CopperTidy.Proofs.Undo

/-! # What observers hear

A run does not depend on its observer, so what one observer hears, every observer hears: the notices
that the recorder writes down, in their order (`Overheard`). The notices go with the changes
(`Heard`). One comes before every removal, and a second one directly after it if the track is a copy
or is merged: then it is offered to a live track, which ends where the removed one ended.
-/

namespace CopperTidy
set_option autoImplicit false

/-! ## Notices -/

/-- What an observer has seen when it has heard one more notice. -/
def Observer.hear {σ : Type} (observer : Observer σ) (seen : σ) : Notice → σ
  | .beforeRemove t => observer.beforeRemove t seen
  | .reattach s t => observer.reattach s t seen

theorem Observer.foldl_hear_concat {σ : Type} (observer : Observer σ) (first : σ)
    (ns : List Notice) (n : Notice) :
    (ns ++ [n]).foldl observer.hear first = observer.hear (ns.foldl observer.hear first) n := by
  rw [List.foldl_append]
  rfl

/-- The track that is about to go. -/
def Notice.leaving? : Notice → Option Track
  | .beforeRemove t => some t
  | .reattach .. => none

/-- The track that is offered to another one. -/
def Notice.offered? : Notice → Option Track
  | .beforeRemove _ => none
  | .reattach _ t => some t

/-- The track that the change takes off the board. -/
def Change.leaving? : Change → Option Track
  | .removed _ t _ => some t
  | .modified .. => none

/-- The track that the change takes off the board for another one. -/
def Change.offered? : Change → Option Track
  | .removed _ t reason => if reason.absorbs then some t else none
  | .modified .. => none

theorem Reason.absorbs_iff {reason : Reason} :
    reason.absorbs = true ↔ reason = .duplicateTrack ∨ reason = .mergedCollinear := by
  cases reason <;> decide

/-! ## Notices beside changes -/

/-- Changes that lead from `b` to a board, and the notices that go with them. -/
inductive Heard (b : Board) : List Change → List Notice → Board → Prop
  | nil : Heard b [] [] b
  | edit {cs : List Change} {ns : List Notice} {c : Board} {id : Nat} {t : Track}
      (before : Heard b cs ns c) (live : c.track? id = some t) (edit : Track → Track) :
      Heard b (cs ++ [.modified id t (edit t)]) ns (c.modify id edit)
  | remove {cs : List Change} {ns : List Notice} {c : Board} {id : Nat} {t : Track}
      {reason : Reason} (before : Heard b cs ns c) (live : c.track? id = some t)
      (plain : reason.absorbs = false) :
      Heard b (cs ++ [.removed id t reason]) (ns ++ [.beforeRemove t]) (c.remove id)
  | absorb {cs : List Change} {ns : List Notice} {c : Board} {id survivor : Nat} {s t : Track}
      {p : Point} {reason : Reason} (before : Heard b cs ns c) (live : c.track? id = some t)
      (absorbs : reason.absorbs = true) (ne : survivor ≠ id)
      (stays : c.track? survivor = some s) (here : s.hasEndAt p = true)
      (there : t.hasEndAt p = true) :
      Heard b (cs ++ [.removed id t reason]) (ns ++ [.beforeRemove t, .reattach s t]) (c.remove id)

/-- After the notices `earlier`, a removed track is offered to another one: right after its own
removal, as a copy or as merged. The other one is on the board then and ends where it ended. -/
def Offered (b : Board) (changes : List Change) (earlier : List Notice)
    (survivor removed : Track) : Prop :=
  ∃ told cs id reason ds slots other,
    earlier = told ++ [.beforeRemove removed] ∧
    changes = cs ++ .removed id removed reason :: ds ∧
    told.filterMap Notice.leaving? = cs.filterMap Change.leaving? ∧
    (reason = .duplicateTrack ∨ reason = .mergedCollinear) ∧
    Change.replayAll? b.slots (cs ++ [.removed id removed reason]) = some slots ∧
    other ≠ id ∧ slots[other]? = some (some survivor) ∧
    ∃ p, survivor.hasEndAt p = true ∧ removed.hasEndAt p = true

namespace Heard

variable {b c : Board} {cs : List Change} {ns : List Notice}

theorem replayAll? (h : Heard b cs ns c) : Change.replayAll? b.slots cs = some c.slots := by
  have removed {cs : List Change} {c : Board} {id : Nat} {t : Track} (reason : Reason)
      (ih : Change.replayAll? b.slots cs = some c.slots) (live : c.track? id = some t) :
      Change.replayAll? b.slots (cs ++ [.removed id t reason]) = some (c.remove id).slots := by
    rw [Change.replayAll?_append, ih, Option.bind_some, Change.replayAll?_cons,
      Board.replay?_removed live]
    rfl
  induction h with
  | nil => rfl
  | edit _ live edit ih =>
    rw [Change.replayAll?_append, ih, Option.bind_some, Change.replayAll?_cons,
      Board.replay?_modified live]
    rfl
  | remove _ live _ ih => exact removed _ ih live
  | absorb _ live _ _ _ _ _ ih => exact removed _ ih live

/-- Of every removal there is a notice before. -/
theorem leaving (h : Heard b cs ns c) :
    ns.filterMap Notice.leaving? = cs.filterMap Change.leaving? := by
  induction h with
  | nil => rfl
  | edit _ _ _ ih => simp [ih, Change.leaving?]
  | remove _ _ _ ih => simp [ih, Change.leaving?, Notice.leaving?]
  | absorb _ _ _ _ _ _ _ ih => simp [ih, Change.leaving?, Notice.leaving?]

/-- Of every copy and every merged track there is a notice after. -/
theorem offered (h : Heard b cs ns c) :
    ns.filterMap Notice.offered? = cs.filterMap Change.offered? := by
  induction h with
  | nil => rfl
  | edit _ _ _ ih => simp [ih, Change.offered?]
  | remove _ _ plain ih => simp [ih, Change.offered?, Notice.offered?, plain]
  | @absorb _ _ _ _ _ s t _ _ _ _ absorbs _ _ _ _ ih =>
    have told : [Notice.beforeRemove t, .reattach s t].filterMap Notice.offered? = [t] := rfl
    simp [ih, Change.offered?, told, absorbs]

end Heard

theorem Offered.append {b : Board} {cs : List Change} {earlier : List Notice} {s t : Track}
    (h : Offered b cs earlier s t) (more : List Change) : Offered b (cs ++ more) earlier s t := by
  obtain ⟨told, before, id, reason, ds, slots, other, rest⟩ := h
  obtain ⟨split, rfl, facts⟩ := rest
  exact ⟨told, before, id, reason, ds ++ more, slots, other, split, by simp, facts⟩

/-- A notice is among the earlier ones or among those of the last change. -/
theorem Heard.offers {b c : Board} {cs : List Change} {ns earlier : List Notice} {s t : Track}
    (h : Heard b cs ns c) (told : earlier ++ [.reattach s t] <+: ns) :
    Offered b cs earlier s t := by
  induction h with
  | nil =>
    have := told.length_le
    simp at this
  | edit _ _ _ ih => exact (ih told).append _
  | remove _ _ _ ih =>
    rcases List.prefix_concat_iff.mp told with last | told
    · cases (List.append_inj' last rfl).2
    · exact (ih told).append _
  | @absorb cs ns c id survivor s' t' p reason before live absorbs ne stays here there ih =>
    rw [show ns ++ [.beforeRemove t', .reattach s' t'] =
      ns ++ [.beforeRemove t'] ++ [.reattach s' t'] by simp] at told
    rcases List.prefix_concat_iff.mp told with last | told
    · obtain ⟨rfl, same⟩ := List.append_inj' last rfl
      cases same
      refine ⟨ns, cs, id, reason, [], (c.remove id).slots, survivor, rfl, rfl, before.leaving,
        Reason.absorbs_iff.mp absorbs,
        (before.absorb live absorbs ne stays here there).replayAll?, ne, ?_, p, here, there⟩
      rw [← Board.track?_eq_some_iff, Board.track?_remove, if_neg ne]
      exact stays
    rcases List.prefix_concat_iff.mp told with last | told
    · cases (List.append_inj' last rfl).2
    · exact (ih told).append _

namespace Run

/-! ## The recorder's run -/

/-- What the recorder wrote down goes with what the run logged. -/
structure Recorded (b : Board) (r : Run Contacts (List Notice)) : Prop where
  observer : r.observer = .recorder
  heard : Heard b r.log r.seen r.board

namespace Recorded

variable {b : Board} {r : Run Contacts (List Notice)}

theorem rebuild (h : Recorded b r) : Recorded b r.rebuild := ⟨h.observer, h.heard⟩

theorem modifyTrack (h : Recorded b r) (edit : Track → Track) (id : Nat) :
    Recorded b (r.modifyTrack edit id) := by
  unfold Run.modifyTrack
  cases live : r.board.track? id with
  | none => exact h
  | some t => exact ⟨h.observer, h.heard.edit live edit⟩

theorem normalizeVia (h : Recorded b r) (id : Nat) : Recorded b (r.normalizeVia id) := by
  have mended := h.modifyTrack (fun t => { t with stop := t.start }) id
  exact ⟨mended.observer, mended.heard⟩

theorem removeTrack (h : Recorded b r) {reason : Reason} (plain : reason.absorbs = false)
    (id : Nat) : Recorded b (r.removeTrack reason id) := by
  unfold Run.removeTrack
  cases live : r.board.track? id with
  | none => exact h
  | some t =>
    refine ⟨h.observer, ?_⟩
    simp only [h.observer]
    exact h.heard.remove live plain

theorem absorbTrack (h : Recorded b r) {reason : Reason} (absorbs : reason.absorbs = true)
    {survivor id : Nat} (adjoins : r.board.Adjoins survivor id) :
    Recorded b (r.absorbTrack reason survivor id) := by
  obtain ⟨s, t, p, stays, live, here, there⟩ := adjoins.tracks
  have still : (r.board.remove id).track? survivor = some s := by
    rw [Board.track?_remove, if_neg adjoins.ne]
    exact stays
  have heard := h.heard.absorb live absorbs adjoins.ne stays here there
  simp only [Run.absorbTrack, Run.removeTrack, Run.reattach, live, still, h.observer]
  refine ⟨rfl, ?_⟩
  simpa [Observer.recorder] using heard

end Recorded

theorem lockstep_recorded (b : Board) :
    Lockstep fun r s : Run Contacts (List Notice) => s = r ∧ Recorded b r where
  board := fun p => congrArg Run.board p.1
  contacts := fun p => congrArg Run.contacts p.1
  rebuild := fun p => ⟨congrArg Run.rebuild p.1, p.2.rebuild⟩
  normalizeVia := fun p id => ⟨congrArg (Run.normalizeVia · id) p.1, p.2.normalizeVia id⟩
  stretch := fun p id _ _ => ⟨congrArg (Run.modifyTrack _ · id) p.1, p.2.modifyTrack _ id⟩
  removeTrack := fun p _ plain id =>
    ⟨congrArg (Run.removeTrack _ · id) p.1, p.2.removeTrack plain id⟩
  absorbTrack := fun p _ absorbs _ id adjoins =>
    ⟨congrArg (Run.absorbTrack _ _ · id) p.1, p.2.absorbTrack absorbs adjoins⟩

/-! ## Any other observer -/

variable {σ : Type} {observer : Observer σ} {first : σ}

/-- A run beside the recorder's: it did the same, and its observer heard the same. -/
structure Overheard (observer : Observer σ) (first : σ) (r : Run Contacts (List Notice))
    (s : Run Contacts σ) : Prop where
  board : s.board = r.board
  contacts : s.contacts = r.contacts
  log : s.log = r.log
  stats : s.stats = r.stats
  recorder : r.observer = .recorder
  hearer : s.observer = observer
  seen : s.seen = r.seen.foldl observer.hear first

namespace Overheard

variable {r : Run Contacts (List Notice)} {s : Run Contacts σ}

theorem modifyTrack (h : Overheard observer first r s) (edit : Track → Track) (id : Nat) :
    Overheard observer first (r.modifyTrack edit id) (s.modifyTrack edit id) := by
  unfold Run.modifyTrack
  rw [h.board, h.log]
  cases r.board.track? id with
  | none => exact h
  | some t => exact ⟨rfl, h.contacts, rfl, h.stats, h.recorder, h.hearer, h.seen⟩

theorem normalizeVia (h : Overheard observer first r s) (id : Nat) :
    Overheard observer first (r.normalizeVia id) (s.normalizeVia id) := by
  have mended := h.modifyTrack (fun t => { t with stop := t.start }) id
  refine ⟨mended.board, mended.contacts, mended.log, ?_, mended.recorder, mended.hearer,
    mended.seen⟩
  simp only [Run.normalizeVia, mended.stats]

theorem removeTrack (h : Overheard observer first r s) (reason : Reason) (id : Nat) :
    Overheard observer first (r.removeTrack reason id) (s.removeTrack reason id) := by
  unfold Run.removeTrack
  rw [h.board]
  cases r.board.track? id with
  | none => exact h
  | some t =>
    refine ⟨rfl, h.contacts, congrArg (· ++ _) h.log, congrArg (·.count reason) h.stats,
      h.recorder, h.hearer, ?_⟩
    simp only [h.recorder, h.hearer, h.seen]
    exact (observer.foldl_hear_concat first r.seen (.beforeRemove t)).symm

theorem reattach (h : Overheard observer first r s) (survivor : Nat) (t : Track) :
    Overheard observer first (r.reattach survivor t) (s.reattach survivor t) := by
  unfold Run.reattach
  rw [h.board]
  cases r.board.track? survivor with
  | none => exact h
  | some u =>
    refine ⟨rfl, h.contacts, h.log, h.stats, h.recorder, h.hearer, ?_⟩
    simp only [h.recorder, h.hearer, h.seen]
    exact (observer.foldl_hear_concat first r.seen (.reattach u t)).symm

theorem absorbTrack (h : Overheard observer first r s) (reason : Reason) (survivor id : Nat) :
    Overheard observer first (r.absorbTrack reason survivor id)
      (s.absorbTrack reason survivor id) := by
  unfold Run.absorbTrack
  rw [h.board]
  cases r.board.track? id with
  | none => exact h
  | some t => exact (h.removeTrack reason id).reattach survivor t

end Overheard

theorem lockstep_overheard (observer : Observer σ) (first : σ) :
    Lockstep (Overheard observer first) where
  board := fun p => p.board
  contacts := fun p => p.contacts
  rebuild := fun p => by
    refine ⟨p.board, ?_, p.log, p.stats, p.recorder, p.hearer, p.seen⟩
    simp only [Run.rebuild, p.board]
  normalizeVia := fun p id => p.normalizeVia id
  stretch := fun p id _ _ => p.modifyTrack _ id
  removeTrack := fun p reason _ id => p.removeTrack reason id
  absorbTrack := fun p reason _ survivor id _ => p.absorbTrack reason survivor id

end Run

/-! ## A whole cleaning -/

namespace Board

theorem cleanWith_eq {σ : Type} (b : Board) (o : Options) (observer : Observer σ) (seen : σ) :
    let s : Run Contacts σ × Bool := Run.cleanup o (Run.start b observer seen)
    b.cleanWith o observer seen = (⟨s.2, s.1.board, s.1.log, s.1.stats⟩, s.1.seen) := by
  unfold cleanWith
  generalize Run.cleanup o (Run.start b observer seen : Run Contacts σ) = s
  obtain ⟨r, modified⟩ := s
  rfl

/-- What the recorder writes down in a cleaning. -/
def notices (b : Board) (o : Options) : List Notice := (b.cleanWith o .recorder []).2

theorem cleanWith_recorder {σ : Type} (b : Board) (o : Options) (observer : Observer σ) (seen : σ) :
    b.cleanWith o observer seen =
      ((b.cleanWith o .recorder []).1, (b.notices o).foldl observer.hear seen) := by
  have beside : Run.Overheard observer seen (Run.start b .recorder [])
      (Run.start b observer seen) :=
    ⟨rfl, rfl, rfl, rfl, rfl, rfl, rfl⟩
  obtain ⟨run, told⟩ := (Run.lockstep_overheard observer seen).cleanup o beside
  rw [notices, cleanWith_eq, cleanWith_eq]
  simp only [told, run.board, run.log, run.stats, run.seen]

theorem heard (b : Board) (o : Options) :
    Heard b (b.clean o).changes (b.notices o) (b.clean o).board := by
  have start : Run.Recorded b (Run.start b .recorder []) := ⟨rfl, .nil⟩
  obtain ⟨⟨_, recorded⟩, _⟩ := (Run.lockstep_recorded b).cleanup o ⟨rfl, start⟩
  rw [clean, cleanWith_recorder, notices, cleanWith_eq]
  exact recorded.heard

/-- Every observer leaves a cleaning as it is without one and hears the same notices. They tell of
the removed tracks in the order of the changes, and offer the copies and the merged ones, in that
order again, each right after its removal. -/
theorem clean_heard {σ : Type} (b : Board) (o : Options) (observer : Observer σ) (seen : σ) :
    let notices := b.notices o
    let changes := (b.clean o).changes
    b.cleanWith o observer seen = (b.clean o, notices.foldl observer.hear seen) ∧
      notices.filterMap Notice.leaving? = changes.filterMap Change.leaving? ∧
      notices.filterMap Notice.offered? = changes.filterMap Change.offered? ∧
      ∀ earlier survivor removed later,
        notices = earlier ++ .reattach survivor removed :: later →
        Offered b changes earlier survivor removed := by
  have heard := b.heard o
  refine ⟨?_, heard.leaving, heard.offered, fun earlier survivor removed later split => ?_⟩
  · rw [clean, cleanWith_recorder b o observer seen, cleanWith_recorder b o .silent ()]
  · refine heard.offers ⟨later, ?_⟩
    rw [split, List.append_assoc]
    rfl

/-- A trace, a copy of it, and a trace that goes on where they end. -/
def copiedStretch : Board :=
  let trace (uuid : String) (start stop : Point) : Option Track :=
    some ⟨uuid, start, stop, 200, .front, 1, .trace⟩
  { slots := [trace "a" ⟨0, 0⟩ ⟨10, 0⟩, trace "b" ⟨10, 0⟩ ⟨0, 0⟩, trace "c" ⟨10, 0⟩ ⟨20, 0⟩] }

/-- The copy is offered to the trace, and the rest to the trace that has become longer. -/
theorem clean_heard_copiedStretch :
    let o := { Options.none with mergeSegments := true }
    let trace (uuid : String) (start stop : Point) : Track :=
      ⟨uuid, start, stop, 200, .front, 1, .trace⟩
    let a := trace "a" ⟨0, 0⟩ ⟨10, 0⟩
    let b := trace "b" ⟨10, 0⟩ ⟨0, 0⟩
    let c := trace "c" ⟨10, 0⟩ ⟨20, 0⟩
    let longer := trace "a" ⟨0, 0⟩ ⟨20, 0⟩
    let earlier := [Notice.beforeRemove b, .reattach a b, .beforeRemove c]
    copiedStretch.notices o = earlier ++ [.reattach longer c] ∧
      Offered copiedStretch (copiedStretch.clean o).changes earlier longer c := by
  intro o trace a b c longer earlier
  have told : copiedStretch.notices o = earlier ++ [.reattach longer c] := by decide +kernel
  exact ⟨told, (clean_heard copiedStretch o .silent ()).2.2.2 earlier longer c [] told⟩

end Board
end CopperTidy
