import Mathlib.Logic.Function.Basic
import CopperTidy.Proofs.Gathered
import CopperTidy.Proofs.Passes

/-! # Two runs side by side

What a run does depends on its board and on the contacts it knows, and not on its observer. So two
runs with one board and one set of contacts make the same changes, and a relation between them that
survives every single change survives all passes (`Lockstep`). The relation may look at what the
observers have seen. A track that is absorbed is still live then, and so is the track that takes it
in, which ends where the other one ends.
-/

namespace CopperTidy
set_option autoImplicit false

/-- Is the track that goes for this reason offered to another one? -/
def Reason.absorbs : Reason → Bool
  | .duplicateTrack | .mergedCollinear => true
  | _ => false

/-- Two live tracks with a common end. -/
structure Board.Adjoins (b : Board) (survivor id : Nat) : Prop where
  ne : survivor ≠ id
  tracks : ∃ s t p, b.track? survivor = some s ∧ b.track? id = some t ∧
    s.hasEndAt p = true ∧ t.hasEndAt p = true

namespace Run

variable {σ τ : Type} {P : Run Contacts σ → Run Contacts τ → Prop}

/-- The relation survives every change that a run makes to its board. -/
structure Lockstep (P : Run Contacts σ → Run Contacts τ → Prop) : Prop where
  board : ∀ {r s}, P r s → s.board = r.board
  contacts : ∀ {r s}, P r s → s.contacts = r.contacts
  rebuild : ∀ {r s}, P r s → P r.rebuild s.rebuild
  normalizeVia : ∀ {r s}, P r s → ∀ id, P (r.normalizeVia id) (s.normalizeVia id)
  stretch : ∀ {r s}, P r s → ∀ id side p,
    P (r.modifyTrack (fun v => v.setPoint p side) id)
      (s.modifyTrack (fun v => v.setPoint p side) id)
  removeTrack : ∀ {r s}, P r s → ∀ {reason : Reason}, reason.absorbs = false → ∀ id,
    P (r.removeTrack reason id) (s.removeTrack reason id)
  absorbTrack : ∀ {r s}, P r s → ∀ {reason : Reason}, reason.absorbs = true → ∀ {survivor id},
    r.board.Adjoins survivor id →
    P (r.absorbTrack reason survivor id) (s.absorbTrack reason survivor id)

theorem absorbTrack_of_none {r : Run Contacts σ} {reason : Reason} {survivor id : Nat}
    (none : r.board.track? id = none) : r.absorbTrack reason survivor id = r := by
  rw [absorbTrack, none]

/-- What the contacts have at an end of a track is looked up on the board once more. -/
theorem of_mem_attached {r : Run Contacts σ} {id other : Nat} {side : Side}
    (mem : other ∈ r.attached id side) :
    ∃ t u, r.board.track? id = some t ∧ r.board.track? other = some u ∧ id ≠ other ∧
      u.hasEndAt (t.point side) = true := by
  unfold attached ContactSource.connectedAt at mem
  cases there : r.board.track? id with
  | none =>
    rw [there] at mem
    cases mem
  | some t =>
    rw [there] at mem
    obtain ⟨u, live, wanted⟩ := (Option.any_eq_true _ _).mp (List.mem_filter.mp mem).2
    rw [Bool.and_eq_true, Neighbors.wants_iff] at wanted
    exact ⟨t, u, rfl, live, fun same => wanted.2.1 same.symm, wanted.1⟩

theorem hasEndAt_farEnd (u : Track) (near : Point) : u.hasEndAt (farEnd u near) = true := by
  unfold farEnd
  split
  · exact Track.hasEndAt_iff.mpr (.inr rfl)
  · exact Track.hasEndAt_iff.mpr (.inl rfl)

/-- Two steps that lead to related runs, and tell the same. -/
structure Agree (P : Run Contacts σ → Run Contacts τ → Prop) (first : Run Contacts σ × Bool)
    (second : Run Contacts τ × Bool) : Prop where
  run : P first.1 second.1
  told : second.2 = first.2

namespace Lockstep

variable {r : Run Contacts σ} {s : Run Contacts τ} (h : Lockstep P)

theorem idle (p : P r s) (changed : Bool) : Agree P (r, changed) (s, changed) := ⟨p, rfl⟩

include h

theorem refresh (p : P r s) : P r.refresh s.refresh := by
  unfold Run.refresh
  rw [h.board p, h.contacts p]
  split
  · exact p
  · exact h.rebuild p

/-! ## Loops -/

omit h in
theorem foldl {step : Run Contacts σ → Nat → Run Contacts σ}
    {step' : Run Contacts τ → Nat → Run Contacts τ}
    (each : ∀ {r s}, P r s → ∀ id, P (step r id) (step' s id)) (p : P r s) (ids : List Nat) :
    P (ids.foldl step r) (ids.foldl step' s) := by
  induction ids generalizing r s with
  | nil => exact p
  | cons id rest ih => exact ih (each p id)

theorem removals (p : P r s) {reason : Reason} (plain : reason.absorbs = false) (ids : List Nat) :
    P (ids.foldl (Run.removeTrack reason) r) (ids.foldl (Run.removeTrack reason) s) :=
  foldl (P := P) (fun q id => h.removeTrack q plain id) p ids

omit h in
theorem forEach {step : Run Contacts σ → Nat → Run Contacts σ × Bool}
    {step' : Run Contacts τ → Nat → Run Contacts τ × Bool}
    (each : ∀ {r s}, P r s → ∀ id, Agree P (step r id) (step' s id)) (p : P r s) (ids : List Nat) :
    Agree P (Run.forEach step r ids) (Run.forEach step' s ids) := by
  induction ids generalizing r s with
  | nil => exact idle p false
  | cons id rest ih =>
    have first := each p id
    have later := ih first.run
    exact ⟨later.run, congrArg₂ or first.told later.told⟩

/-! ## Vias -/

theorem normalizeVias (p : P r s) : Agree P r.normalizeVias s.normalizeVias := by
  unfold Run.normalizeVias
  rw [h.board p]
  exact ⟨foldl (P := P) (fun q id => h.normalizeVia q id) p _, rfl⟩

theorem onThroughPad (p : P r s) (id : Nat) : s.onThroughPad id = r.onThroughPad id := by
  rw [Run.onThroughPad, Run.onThroughPad, h.board p, h.contacts p]

theorem cleanVia (p : P r s) (id : Nat) : Agree P (r.cleanVia id) (s.cleanVia id) := by
  unfold Run.cleanVia
  rw [h.board p]
  cases r.board.track? id with
  | none => exact idle p false
  | some via =>
    have plain : Reason.duplicateVia.absorbs = false := rfl
    have removed := h.removals p plain (Run.stackedOn r.board id via)
    simp only [h.onThroughPad removed]
    split
    · split
      · exact idle (h.removeTrack removed rfl id) true
      · exact idle removed _
    · exact idle p false

theorem cleanVias (p : P r s) : Agree P r.cleanVias s.cleanVias := by
  have refreshed := h.refresh p
  unfold Run.cleanVias
  simp only [h.board refreshed]
  exact forEach (fun q id => h.cleanVia q id) refreshed _

/-! ## Segments -/

theorem deleteNullSegments (p : P r s) : Agree P r.deleteNullSegments s.deleteNullSegments := by
  unfold Run.deleteNullSegments
  rw [h.board p]
  exact ⟨h.removals p rfl _, rfl⟩

/-- Copies go while the track that they repeat stays. -/
theorem absorbCopies (p : P r s) {survivor : Nat} {t : Track}
    (there : r.board.track? survivor = some t) {copies : List Nat}
    (repeats : ∀ other ∈ copies, survivor ≠ other ∧ ∀ u, r.board.track? other = some u →
      u.hasEndAt t.start = true) :
    P (copies.foldl (Run.absorbTrack .duplicateTrack survivor) r)
      (copies.foldl (Run.absorbTrack .duplicateTrack survivor) s) := by
  induction copies generalizing r s with
  | nil => exact p
  | cons other rest ih =>
    obtain ⟨ne, meets⟩ := repeats other List.mem_cons_self
    have absorbed : P (r.absorbTrack .duplicateTrack survivor other)
        (s.absorbTrack .duplicateTrack survivor other) := by
      cases live : r.board.track? other with
      | none =>
        rw [absorbTrack_of_none live, absorbTrack_of_none ((h.board p) ▸ live)]
        exact p
      | some u =>
        have own : t.hasEndAt t.start = true := Track.hasEndAt_iff.mpr (.inl rfl)
        exact h.absorbTrack p rfl ⟨ne, t, u, t.start, there, live, own, meets u live⟩
    refine ih absorbed ?_ fun next mem => ?_
    · rw [absorbTrack_board, Board.track?_remove, if_neg ne]
      exact there
    · obtain ⟨ne', meets'⟩ := repeats next (List.mem_cons_of_mem other mem)
      refine ⟨ne', fun u live => meets' u ?_⟩
      rw [absorbTrack_board] at live
      exact (Board.track?_of_remove live).2

theorem removeCopies (p : P r s) (id : Nat) : Agree P (r.removeCopies id) (s.removeCopies id) := by
  unfold Run.removeCopies
  rw [h.board p]
  cases there : r.board.track? id with
  | none => exact idle p false
  | some t =>
    refine ⟨h.absorbCopies p there fun other mem => ?_, rfl⟩
    obtain ⟨later, u, live, _, same⟩ := of_mem_copiesOf mem
    refine ⟨Nat.ne_of_lt later, fun v live' => ?_⟩
    rw [live, Option.some.injEq] at live'
    subst live'
    simp only [Track.duplicates, Track.sameEnds, Bool.and_eq_true, Bool.or_eq_true,
      beq_iff_eq] at same
    exact Track.hasEndAt_iff.mpr (same.2.imp (fun ends => ends.1.symm) fun ends => ends.1.symm)

theorem attached_eq (p : P r s) (id : Nat) (side : Side) :
    s.attached id side = r.attached id side := by
  rw [attached, attached, h.board p, h.contacts p]

/-- The trace that is merged is live and ends where the other one ends, before it is stretched and
after. -/
theorem mergePair (p : P r s) {id other : Nat} {side : Side}
    (only : r.attached id side = [other]) :
    Agree P (r.mergePair id other side) (s.mergePair id other side) := by
  obtain ⟨t, u, there, live, ne, near⟩ := of_mem_attached (only ▸ List.mem_singleton_self other)
  have own : t.hasEndAt (t.point side) = true := (Track.hasEndAt_iff_side side).mpr (.inl rfl)
  unfold Run.mergePair
  rw [h.board p, h.contacts p, there, live]
  simp only
  split
  · exact idle p false
  split
  · exact idle (h.absorbTrack p rfl ⟨ne, t, u, _, there, live, own, near⟩) true
  split
  · exact idle p false
  · have stretched := h.stretch p id side (farEnd u (t.point side))
    have ends := hasEndAt_farEnd u (t.point side)
    generalize farEnd u (t.point side) = far at stretched ends ⊢
    refine idle (h.absorbTrack stretched rfl ⟨ne, t.setPoint far side, u, far, ?_, ?_, ?_,
      ends⟩) true
    · rw [modifyTrack_board, Board.track?_modify, if_pos rfl, there]
      rfl
    · rw [modifyTrack_board, Board.track?_modify, if_neg ne.symm]
      exact live
    · exact (Track.hasEndAt_iff_side side).mpr (.inl (Track.point_setPoint t far side))

theorem mergeAt (p : P r s) (id : Nat) (side : Side) :
    Agree P (r.mergeAt id side) (s.mergeAt id side) := by
  have refreshed := h.refresh p
  unfold Run.mergeAt
  simp only [h.attached_eq refreshed]
  split
  · next other only => exact h.mergePair refreshed only
  · exact idle refreshed false

theorem mergeOnce (p : P r s) (id : Nat) : Agree P (r.mergeOnce id) (s.mergeOnce id) := by
  obtain ⟨run, told⟩ := h.mergeAt p id .start
  unfold Run.mergeOnce
  generalize r.mergeAt id .start = first at run told
  generalize s.mergeAt id .start = second at run told
  obtain ⟨first, merged⟩ := first
  obtain ⟨second, merged'⟩ := second
  cases told
  cases merged with
  | true => exact idle run true
  | false => exact h.mergeAt run id .stop

theorem mergeUpTo (limit : Nat) (p : P r s) (id : Nat) :
    Agree P (Run.mergeUpTo limit r id) (Run.mergeUpTo limit s id) := by
  induction limit generalizing r s with
  | zero => exact idle p false
  | succ limit ih =>
    obtain ⟨run, told⟩ := h.mergeOnce p id
    unfold Run.mergeUpTo
    rw [h.board p]
    generalize r.mergeOnce id = first at run told
    generalize s.mergeOnce id = second at run told
    obtain ⟨first, merged⟩ := first
    obtain ⟨second, merged'⟩ := second
    cases told
    split
    · cases merged with
      | true => exact idle (ih run).run true
      | false => exact idle run false
    · exact idle p false

theorem mergeAll (p : P r s) (id : Nat) : Agree P (r.mergeAll id) (s.mergeAll id) := by
  rw [Run.mergeAll, Run.mergeAll, h.board p]
  exact h.mergeUpTo _ p id

theorem cleanSegments (p : P r s) : Agree P r.cleanSegments s.cleanSegments := by
  have null := h.deleteNullSegments p
  unfold Run.cleanSegments
  generalize r.deleteNullSegments = first at null
  generalize s.deleteNullSegments = second at null
  have copies := forEach (P := P) (fun q id => h.removeCopies q id) null.run first.1.board.ids
  have merged := forEach (P := P) (fun q id => h.mergeAll q id) copies.run
    (Run.forEach Run.removeCopies first.1 first.1.board.ids).1.board.ids
  simp only [h.board null.run, h.board copies.run]
  exact ⟨merged.run, congrArg₂ or (congrArg₂ or null.told copies.told) merged.told⟩

/-! ## Shorts and dangling tracks -/

theorem removeShorts (p : P r s) : Agree P r.removeShorts s.removeShorts := by
  have rebuilt := h.rebuild p
  unfold Run.removeShorts
  simp only [h.board rebuilt, h.contacts rebuilt]
  exact ⟨h.removals rebuilt rfl _, rfl⟩

theorem shortPass (p : P r s) : Agree P r.shortPass s.shortPass := by
  obtain ⟨run, told⟩ := h.removeShorts p
  unfold Run.shortPass
  generalize r.removeShorts = first at run told
  generalize s.removeShorts = second at run told
  obtain ⟨first, changed⟩ := first
  obtain ⟨second, changed'⟩ := second
  cases told
  cases changed with
  | true => exact idle (h.rebuild run) true
  | false => exact idle run false

theorem danglingRounds (limit : Nat) (p : P r s) :
    Agree P (Run.danglingRounds limit r) (Run.danglingRounds limit s) := by
  induction limit generalizing r s with
  | zero => exact idle p false
  | succ limit ih =>
    have refreshed := h.refresh p
    unfold Run.danglingRounds
    simp only [h.board refreshed, h.contacts refreshed]
    split
    · exact idle refreshed false
    · exact idle (ih (h.removals refreshed rfl _)).run true

theorem danglingPass (o : Options) (p : P r s) : Agree P (r.danglingPass o) (s.danglingPass o) := by
  have refreshed := h.refresh p
  have rounds : Agree P r.refresh.deleteDangling s.refresh.deleteDangling := by
    rw [deleteDangling, deleteDangling, h.board refreshed]
    exact h.danglingRounds _ refreshed
  rw [danglingPass_eq, danglingPass_eq, rounds.told]
  split
  · exact idle (h.cleanSegments rounds.run).run true
  · exact rounds

/-! ## A whole cleaning -/

omit h in
theorem when (on : Bool) {pass : Run Contacts σ → Run Contacts σ × Bool}
    {pass' : Run Contacts τ → Run Contacts τ × Bool} (p : P r s)
    (agree : Agree P (pass r) (pass' s)) : Agree P (Run.when on pass r) (Run.when on pass' s) := by
  cases on with
  | true => exact agree
  | false => exact idle p false

theorem segmentPass (o : Options) (p : P r s) : Agree P (r.segmentPass o) (s.segmentPass o) := by
  unfold Run.segmentPass
  split
  · exact h.cleanSegments p
  split
  · exact h.deleteNullSegments p
  · exact idle p false

/-- Two runs side by side stay so to the end, and tell the same. -/
theorem cleanup (o : Options) (p : P r s) : Agree P (r.cleanup o) (s.cleanup o) := by
  by_cases on : o.anyEnabled = true
  · have mended := h.normalizeVias p
    have rebuilt := h.rebuild mended.run
    have vias := when o.cleanVias rebuilt (h.cleanVias rebuilt)
    have segments := h.segmentPass o vias.run
    have shorts := when o.removeMisconnected segments.run (h.shortPass segments.run)
    have dangling := when o.deleteDangling shorts.run (h.danglingPass o shorts.run)
    rw [cleanup_eq on, cleanup_eq on]
    have told := congrArg₂ or (congrArg₂ or mended.told vias.told) segments.told
    exact ⟨dangling.run, congrArg₂ or (congrArg₂ or told shorts.told) dangling.told⟩
  · unfold Run.cleanup
    rw [if_neg on, if_neg on]
    exact idle p false

end Lockstep
end Run
end CopperTidy
