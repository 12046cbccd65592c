import CopperTidy.Board.Replay
import CopperTidy.Proofs.Passes

/-! # A commit is an exact account

The changes of any number of cleanings, told one after the other, lead from the first board to the
last. So a track goes at most once, and undoing the changes newest first brings the first board back.
-/

namespace CopperTidy
set_option autoImplicit false

/-! ## Replaying -/

namespace Change

theorem replayAll?_append (slots : List (Option Track)) (cs ds : List Change) :
    replayAll? slots (cs ++ ds) = (replayAll? slots cs).bind fun mid => replayAll? mid ds :=
  List.foldlM_append

theorem replayAll?_cons (slots : List (Option Track)) (c : Change) (cs : List Change) :
    replayAll? slots (c :: cs) = (replay? slots c).bind fun mid => replayAll? mid cs :=
  List.foldlM_cons

theorem replay?_eq_some {slots slots' : List (Option Track)} {c : Change}
    (h : replay? slots c = some slots') :
    slots[c.id]? = some (some c.before) ∧ slots' = slots.set c.id c.after := by
  rw [replay?] at h
  split at h
  · next fits => exact ⟨fits, (Option.some.inj h).symm⟩
  · cases h

/-- The id of a track that the change takes off the board. -/
def removedId? : Change → Option Nat
  | .removed id _ _ => some id
  | .modified .. => none

/-- Nothing happens to a slot once it is empty. -/
theorem id_ne_of_replayAll? {slots slots' : List (Option Track)} {cs : List Change} {id : Nat}
    (h : replayAll? slots cs = some slots') (empty : slots[id]? = some none) :
    ∀ c ∈ cs, c.id ≠ id := by
  induction cs generalizing slots with
  | nil => simp
  | cons c rest ih =>
    rw [replayAll?_cons, Option.bind_eq_some_iff] at h
    obtain ⟨mid, first, later⟩ := h
    obtain ⟨fits, rfl⟩ := replay?_eq_some first
    have ne : c.id ≠ id := by
      intro e
      rw [e, empty] at fits
      cases fits
    have still : (slots.set c.id c.after)[id]? = some none := by
      rw [List.getElem?_set_ne ne]
      exact empty
    intro d mem
    rcases List.mem_cons.mp mem with rfl | mem
    · exact ne
    · exact ih later still d mem

theorem removedIds_nodup {slots slots' : List (Option Track)} {cs : List Change}
    (h : replayAll? slots cs = some slots') : (cs.filterMap removedId?).Nodup := by
  induction cs generalizing slots with
  | nil => simp
  | cons c rest ih =>
    rw [replayAll?_cons, Option.bind_eq_some_iff] at h
    obtain ⟨mid, first, later⟩ := h
    have rest_nodup := ih later
    cases c with
    | modified id before after => exact rest_nodup
    | removed id t reason =>
      obtain ⟨fits, rfl⟩ := replay?_eq_some first
      have size : id < slots.length := (List.getElem?_eq_some_iff.mp fits).1
      have empty : (slots.set id none)[id]? = some none := List.getElem?_set_self size
      refine List.nodup_cons.mpr ⟨?_, rest_nodup⟩
      intro again
      obtain ⟨d, mem, gone⟩ := List.mem_filterMap.mp again
      have ne := id_ne_of_replayAll? later empty d mem
      cases d with
      | modified => cases gone
      | removed id' => exact ne (Option.some.inj gone)

/-! ## Undoing -/

theorem undo_pads (b : Board) (c : Change) : (c.undo b).pads = b.pads := by
  cases c <;> rfl

theorem undo_zones (b : Board) (c : Change) : (c.undo b).zones = b.zones := by
  cases c <;> rfl

/-- Newest first: the change that was replayed last is undone first. -/
theorem undoAll_of_replayAll? {b : Board} {slots : List (Option Track)} {cs : List Change}
    (h : replayAll? slots cs = some b.slots) :
    (cs.reverse.foldl undo b).slots = slots ∧ (cs.reverse.foldl undo b).pads = b.pads ∧
      (cs.reverse.foldl undo b).zones = b.zones := by
  induction cs generalizing slots with
  | nil => exact ⟨(Option.some.inj h).symm, rfl, rfl⟩
  | cons c rest ih =>
    rw [replayAll?_cons, Option.bind_eq_some_iff] at h
    obtain ⟨mid, first, later⟩ := h
    obtain ⟨undone, pads, zones⟩ := ih later
    rw [List.reverse_cons, List.foldl_append]
    refine ⟨slots_undo_of_replay? ?_, (undo_pads _ c).trans pads, (undo_zones _ c).trans zones⟩
    rw [undone]
    exact first

end Change

/-! ## Moves are told exactly -/

namespace Board

theorem slots_remove {b : Board} {id : Nat} {t : Track} (h : b.track? id = some t) :
    (b.remove id).slots = b.slots.set id none := by
  rw [remove_of_track? h]

theorem slots_modify {b : Board} {id : Nat} {t : Track} (h : b.track? id = some t)
    (edit : Track → Track) : (b.modify id edit).slots = b.slots.set id (some (edit t)) := by
  rw [modify_of_track? h]

theorem replay?_removed {b : Board} {id : Nat} {t : Track} (h : b.track? id = some t)
    (reason : Reason) : Change.replay? b.slots (.removed id t reason) = some (b.remove id).slots := by
  rw [slots_remove h]
  exact if_pos (track?_eq_some_iff.mp h)

theorem replay?_modified {b : Board} {id : Nat} {t : Track} (h : b.track? id = some t)
    (edit : Track → Track) :
    Change.replay? b.slots (.modified id t (edit t)) = some (b.modify id edit).slots := by
  rw [slots_modify h]
  exact if_pos (track?_eq_some_iff.mp h)

theorem Move.replayAll? {o : Options} {b c : Board} {cs : List Change} (h : Move o b cs c) :
    Change.replayAll? b.slots cs = some c.slots := by
  cases h with
  | mend there _ =>
    rw [Change.replayAll?_cons, replay?_modified there fun t => { t with stop := t.start }]
    rfl
  | leave there _ =>
    rw [Change.replayAll?_cons, replay?_removed there]
    rfl
  | @merge id other t u side _ meet =>
    let edit : Track → Track := fun v => v.setPoint (Run.farEnd u (t.point side)) side
    have live : (b.modify id edit).track? other = some u := by
      rw [track?_modify, if_neg meet.ne]
      exact meet.thereOther
    rw [Change.replayAll?_cons, replay?_modified meet.there edit, Option.bind_some,
      Change.replayAll?_cons, replay?_removed live]
    rfl

theorem Moves.replayAll? {o : Options} {b c : Board} {cs : List Change} (h : Moves o b cs c) :
    Change.replayAll? b.slots cs = some c.slots := by
  induction h with
  | nil => rfl
  | snoc _ last ih =>
    rw [Change.replayAll?_append, ih]
    exact last.replayAll?

end Board

/-! ## Sessions -/

/-- What can be asked of a cleaner. -/
inductive Call
  | cleanBoard (o : Options)
  | removeMisconnected
  deriving DecidableEq, Repr

def Call.options : Call → Options
  | .cleanBoard o => o
  | .removeMisconnected => .onlyMisconnected

/-- A board that is cleaned over and over, and the one commit that all cleanings log into. -/
structure Session where
  board : Board
  commit : Commit := {}
  deriving DecidableEq, Repr

namespace Session

def call (s : Session) (c : Call) : Session :=
  let cleaned := s.board.clean c.options
  ⟨cleaned.board, ⟨s.commit.changes ++ cleaned.changes⟩⟩

def callAll (b : Board) (calls : List Call) : Session := calls.foldl call { board := b }

/-- The commit leads from the first board to the present one. -/
structure Tells (b : Board) (s : Session) : Prop where
  slots : Change.replayAll? b.slots s.commit.changes = some s.board.slots
  pads : s.board.pads = b.pads
  zones : s.board.zones = b.zones

theorem Tells.call {b : Board} {s : Session} (h : Tells b s) (c : Call) :
    Tells b (s.call c) := by
  have moves := s.board.clean_moves c.options
  obtain ⟨pads, zones⟩ := moves.pads_zones
  refine ⟨?_, pads.trans h.pads, zones.trans h.zones⟩
  show Change.replayAll? b.slots (s.commit.changes ++ _) = _
  rw [Change.replayAll?_append, h.slots]
  exact moves.replayAll?

theorem callAll_tells (b : Board) (calls : List Call) : Tells b (callAll b calls) := by
  have all (s : Session) (h : Tells b s) : Tells b (calls.foldl Session.call s) := by
    induction calls generalizing s with
    | nil => exact h
    | cons c rest ih => exact ih (s.call c) (h.call c)
  exact all _ ⟨rfl, rfl, rfl⟩

/-- Closing the commit of any cleanings gives a record that brings the first board back. -/
theorem Tells.revert {b : Board} {s : Session} (h : Tells b s) (some_change : ¬ s.commit.isEmpty)
    (message : String) :
    ∃ record, s.commit.push message = some record ∧ (record.revert s.board).slots = b.slots ∧
      (record.revert s.board).pads = b.pads ∧ (record.revert s.board).zones = b.zones := by
  refine ⟨⟨message, s.commit.changes⟩, if_neg some_change, ?_⟩
  obtain ⟨slots, pads, zones⟩ := Change.undoAll_of_replayAll? h.slots
  exact ⟨slots, pads.trans h.pads, zones.trans h.zones⟩

/-- Replayed on the first board the commit gives the last one, no track goes twice, and undoing
gives the first board again, slot by slot. -/
theorem commit_exact (b : Board) (calls : List Call) :
    let s := callAll b calls
    Change.replayAll? b.slots s.commit.changes = some s.board.slots ∧
      (s.commit.changes.filterMap Change.removedId?).Nodup ∧
      (s.commit.changes ≠ [] → ∀ message, ∃ record, s.commit.push message = some record ∧
        (∀ id, (record.revert s.board).track? id = b.track? id) ∧
        (record.revert s.board).pads = b.pads ∧ (record.revert s.board).zones = b.zones) := by
  have tells := callAll_tells b calls
  refine ⟨tells.slots, Change.removedIds_nodup tells.slots, fun changed message => ?_⟩
  have some_change : ¬ (callAll b calls).commit.isEmpty := by simpa [Commit.isEmpty] using changed
  obtain ⟨record, pushed, slots, rest⟩ := tells.revert some_change message
  refine ⟨record, pushed, fun id => ?_, rest⟩
  rw [Board.track?, slots]
  rfl

/-- Two aligned traces of one net. -/
def alignedPair : Board :=
  let trace (uuid : String) (start stop : Point) : Option Track :=
    some ⟨uuid, start, stop, 200, .front, 1, .trace⟩
  { slots := [trace "a" ⟨0, 0⟩ ⟨10, 0⟩, trace "b" ⟨10, 0⟩ ⟨20, 0⟩] }

/-- The pair becomes one trace, which is then found dangling and goes; undoing brings both back. -/
theorem commit_exact_alignedPair :
    let s := callAll alignedPair [.cleanBoard {}, .removeMisconnected]
    s.commit.changes ≠ [] ∧ ∃ record, s.commit.push "Board cleanup" = some record ∧
      ∀ id, (record.revert s.board).track? id = alignedPair.track? id := by
  have changed : (callAll alignedPair [.cleanBoard {}, .removeMisconnected]).commit.changes ≠ [] := by
    decide +kernel
  obtain ⟨record, pushed, tracks, _⟩ :=
    (commit_exact alignedPair [.cleanBoard {}, .removeMisconnected]).2.2 changed "Board cleanup"
  exact ⟨changed, record, pushed, tracks⟩

end Session
end CopperTidy
