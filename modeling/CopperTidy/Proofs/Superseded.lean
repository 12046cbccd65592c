import Mathlib.Data.List.Basic
import CopperTidy.Proofs.Accounts
import CopperTidy.Proofs.Heard

/-! # Tracks that are superseded

A stacked via, a copy and a merged track all leave because another track stays in their place: it is
live then, and ends where they ended. Copies and merged tracks are offered to it, each one once.
Stacked vias are not: the observer hears that one of them goes, and no more. So an observer is
offered all that is superseded just if no stacked via went.
-/

namespace CopperTidy
set_option autoImplicit false

/-! ## Vocabulary -/

/-- Does a track that goes for this reason leave its place to another one? -/
def Reason.supersedes : Reason → Bool
  | .duplicateVia | .duplicateTrack | .mergedCollinear => true
  | .nullSegment | .viaOnThroughPad | .misConnected | .dangling => false

namespace Change

/-- The track that leaves its place to another one. -/
def superseded? : Change → Option Track
  | .removed _ t reason => if reason.supersedes then some t else none
  | .modified .. => none

/-- The notices that go with a change. A track that is absorbed is offered to its successor. -/
def told (successor : Track) : Change → List Notice
  | .removed _ t reason =>
    if reason.absorbs then [.beforeRemove t, .reattach successor t] else [.beforeRemove t]
  | .modified .. => []

end Change

namespace Board

/-- After the changes `cs`, another track than the changed one is on the board, and ends where that
one ended. -/
def Succeeds (b : Board) (cs : List Change) (change : Change) (successor : Track) : Prop :=
  ∃ slots other p, Change.replayAll? b.slots cs = some slots ∧ other ≠ change.id ∧
    slots[other]? = some (some successor) ∧ successor.hasEndAt p = true ∧
    change.before.hasEndAt p = true

/-- The notices of the changes, piece by piece. Whatever is superseded has a successor at that
moment. -/
structure Told (b : Board) (cs : List Change) (pieces : List (List Notice)) : Prop where
  size : pieces.length = cs.length
  each : ∀ n change, cs[n]? = some change → ∃ s, pieces[n]? = some (change.told s) ∧
    (change.superseded?.isSome = true → b.Succeeds (cs.take (n + 1)) change s)

/-- The via below a stacked one stays. -/
def ViasSucceeded (b : Board) (cs : List Change) : Prop :=
  ∀ n id t, cs[n]? = some (.removed id t .duplicateVia) →
    ∃ s, b.Succeeds (cs.take (n + 1)) (.removed id t .duplicateVia) s

/-! ## One more change -/

variable {o : Options} {b c : Board} {cs ds : List Change}

theorem succeeds_of_track? {change : Change} {other : Nat} {s : Track} {p : Point}
    (replay : Change.replayAll? b.slots cs = some c.slots) (ne : other ≠ change.id)
    (stays : c.track? other = some s) (here : s.hasEndAt p = true)
    (there : change.before.hasEndAt p = true) : b.Succeeds cs change s :=
  ⟨c.slots, other, p, replay, ne, track?_eq_some_iff.mp stays, here, there⟩

theorem Told.snoc {pieces : List (List Notice)} {change : Change} (h : b.Told cs pieces)
    (s : Track)
    (succeeds : change.superseded?.isSome = true → b.Succeeds (cs ++ [change]) change s) :
    b.Told (cs ++ [change]) (pieces ++ [change.told s]) := by
  have size := h.size
  refine ⟨by simp [size], fun n change' entry => ?_⟩
  by_cases within : n < cs.length
  · rw [List.getElem?_append_left within] at entry
    obtain ⟨s', piece, facts⟩ := h.each n change' entry
    refine ⟨s', ?_, fun superseded => ?_⟩
    · rw [List.getElem?_append_left (by omega)]
      exact piece
    · rw [List.take_append_of_le_length (by omega)]
      exact facts superseded
  · obtain ⟨bound, _⟩ := List.getElem?_eq_some_iff.mp entry
    have last : n = cs.length := by
      rw [List.length_append, List.length_singleton] at bound
      omega
    subst last
    rw [List.getElem?_concat_length] at entry
    cases entry
    refine ⟨s, ?_, fun superseded => ?_⟩
    · rw [← size, List.getElem?_concat_length]
    · rw [List.take_of_length_le (by simp)]
      exact succeeds superseded

theorem ViasSucceeded.init (h : b.ViasSucceeded (cs ++ ds)) : b.ViasSucceeded cs := by
  intro n id t entry
  obtain ⟨bound, _⟩ := List.getElem?_eq_some_iff.mp entry
  have succeeds := h n id t (by rw [List.getElem?_append_left bound, entry])
  rw [List.take_append_of_le_length (by omega)] at succeeds
  exact succeeds

/-! ## Stacked vias -/

/-- A via that a move takes off as stacked stood on an earlier one. -/
theorem Moves.viasSucceeded (h : Moves o b cs c) : b.ViasSucceeded cs := by
  induction h with
  | nil =>
    intro n id t entry
    simp at entry
  | @snoc cs ds c d before last ih =>
    intro n id t entry
    by_cases within : n < cs.length
    · rw [List.getElem?_append_left within] at entry
      rw [List.take_append_of_le_length (by omega)]
      exact ih n id t entry
    · have replay := (Moves.snoc before last).replayAll?
      rw [List.getElem?_append_right (by omega)] at entry
      have logged := List.mem_of_getElem? entry
      cases last with
      | mend => simp at logged
      | merge => simp at logged
      | @leave id' t' reason live why =>
        cases List.mem_singleton.mp logged
        have whole : (cs ++ [Change.removed id t .duplicateVia]).take (n + 1) =
            cs ++ [.removed id t .duplicateVia] := List.take_of_length_le (by simp; omega)
        rw [whole]
        cases why with
        | @stacked first s _ there earlier same =>
          simp only [Track.duplicateVias, Bool.and_eq_true, beq_iff_eq] at same
          have ne : first ≠ id := Nat.ne_of_lt earlier
          have stays : (c.remove id).track? first = some s := by
            rw [track?_remove, if_neg ne]
            exact there
          exact ⟨s, succeeds_of_track? replay ne stays (Track.hasEndAt_iff.mpr (.inl rfl))
            (Track.hasEndAt_iff.mpr (.inl same.2.symm))⟩

end Board

/-! ## Notices, piece by piece -/

theorem Change.superseded?_removed (id : Nat) (t : Track) {reason : Reason} :
    (Change.removed id t reason).superseded?.isSome = true ↔
      reason.absorbs = true ∨ reason = .duplicateVia := by
  cases reason <;> simp [superseded?, Reason.supersedes, Reason.absorbs]

theorem Heard.told {b c : Board} {cs : List Change} {ns : List Notice} (h : Heard b cs ns c)
    (vias : b.ViasSucceeded cs) : ∃ pieces : List (List Notice), pieces.flatten = ns ∧
      b.Told cs pieces := by
  induction h with
  | nil => exact ⟨[], rfl, rfl, fun n change entry => by simp at entry⟩
  | @edit _ _ _ id t _ _ edit ih =>
    obtain ⟨pieces, rfl, told⟩ := ih vias.init
    refine ⟨_, ?_, told.snoc t fun superseded => absurd superseded Bool.false_ne_true⟩
    simp [Change.told]
  | @remove cs _ _ id t reason _ _ plain ih =>
    obtain ⟨pieces, rfl, told⟩ := ih vias.init
    by_cases via : reason = .duplicateVia
    · subst via
      obtain ⟨s, succeeds⟩ := vias cs.length id t List.getElem?_concat_length
      rw [List.take_of_length_le (by simp)] at succeeds
      exact ⟨_, by simp [Change.told, plain], told.snoc s fun _ => succeeds⟩
    · refine ⟨_, ?_, told.snoc t fun superseded => ?_⟩
      · simp [Change.told, plain]
      · rw [Change.superseded?_removed, plain] at superseded
        exact absurd superseded (by simp [via])
  | @absorb _ _ c id survivor s t p reason before live absorbs ne stays here there ih =>
    obtain ⟨pieces, rfl, told⟩ := ih vias.init
    have replay := (before.absorb live absorbs ne stays here there).replayAll?
    have still : (c.remove id).track? survivor = some s := by
      rw [Board.track?_remove, if_neg ne]
      exact stays
    refine ⟨_, ?_, told.snoc s fun _ => Board.succeeds_of_track? replay ne still here there⟩
    simp [Change.told, absorbs]

/-! ## All that is superseded -/

/-- What is superseded is offered, or it is a stacked via. -/
theorem Change.countP_superseded (cs : List Change) :
    cs.countP (·.superseded?.isSome) =
      cs.countP (·.offered?.isSome) + cs.countP (·.isFor .duplicateVia) := by
  induction cs with
  | nil => rfl
  | cons c cs ih =>
    have head : (if c.superseded?.isSome then 1 else 0) =
        (if c.offered?.isSome then 1 else 0) + if c.isFor .duplicateVia then 1 else 0 := by
      cases c with
      | modified => rfl
      | removed id t reason => cases reason <;> rfl
    simp only [List.countP_cons]
    omega

theorem Change.offered_eq_superseded_iff (cs : List Change) :
    cs.filterMap offered? = cs.filterMap superseded? ↔ cs.countP (·.isFor .duplicateVia) = 0 := by
  constructor
  · intro same
    have size := congrArg List.length same
    have all := countP_superseded cs
    simp only [List.length_filterMap_eq_countP] at size
    omega
  · intro none_stacked
    refine List.filterMap_congr fun c logged => ?_
    have other := List.countP_eq_zero.mp none_stacked c logged
    cases c with
    | modified => rfl
    | removed id t reason =>
      cases reason <;> first | rfl | exact absurd rfl other

/-! ## A whole cleaning -/

namespace Board

theorem clean_duplicateVias (b : Board) (o : Options) :
    (b.clean o).stats.duplicateVias = (b.clean o).changes.countP (·.isFor .duplicateVia) := by
  have counts := Stats.notes_count (·.removals .duplicateVia) _
    (Stats.removals_note .duplicateVia) {} (b.clean o).changes
  rw [clean_stats]
  exact counts.trans (Nat.zero_add _)

/-- An observer hears the notices of each change, one change after the other. Whatever is superseded
has a successor on the board that ends where it ended; a copy or a merged track is offered to it,
once, and a stacked via is not. So what is offered is all that is superseded just if no stacked via
was taken off. -/
theorem clean_offers {σ : Type} (b : Board) (o : Options) (observer : Observer σ) (seen : σ) :
    let notices := b.notices o
    let changes := (b.clean o).changes
    (b.cleanWith o observer seen).2 = notices.foldl observer.hear seen ∧
      (∃ pieces : List (List Notice), pieces.flatten = notices ∧ b.Told changes pieces) ∧
      (notices.filterMap Notice.offered? = changes.filterMap Change.superseded? ↔
        (b.clean o).stats.duplicateVias = 0) := by
  intro notices changes
  have heard := b.heard o
  refine ⟨?_, heard.told (clean_moves b o).viasSucceeded, ?_⟩
  · rw [cleanWith_recorder]
  · rw [heard.offered, Change.offered_eq_superseded_iff, clean_duplicateVias]

/-- Two through vias in one place. -/
def stackedVias : Board :=
  let via (uuid : String) : Option Track := some (.ofVia uuid ⟨0, 0⟩ 600 1 (.through 300))
  { slots := [via "v1", via "v2"] }

/-- The second via goes, and nobody is asked to take what hangs on it. -/
theorem clean_forgets_stackedVia :
    let o := { Options.none with cleanVias := true }
    let t : Track := .ofVia "v2" ⟨0, 0⟩ 600 1 (.through 300)
    .removed 1 t .duplicateVia ∈ (stackedVias.clean o).changes ∧
      ∀ survivor, Notice.reattach survivor t ∉ stackedVias.notices o := by
  intro o t
  have told : stackedVias.notices o = [.beforeRemove t] := by decide +kernel
  refine ⟨by decide +kernel, fun survivor offered => ?_⟩
  rw [told] at offered
  simp at offered

end Board
end CopperTidy
