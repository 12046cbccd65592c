import CopperTidy.Proofs.Tally
import CopperTidy.Proofs.Tidy

/-! # Flag, log and counters

A cleaning answers whether it changed the board, logs its changes and counts them. The three are
kept apart from each other, and agree after every step (`Accounts`): the counters are those that one
gets by going through the log, and the answer is yes just if something was logged.
-/

namespace CopperTidy
set_option autoImplicit false

namespace Run

variable {σ : Type} {o : Options} {r s q : Run Contacts σ}

/-- The run has gone on from `r` by a step that logged what it counted, and that answers whether it
logged anything. -/
def Accounts (r : Run Contacts σ) (result : Run Contacts σ × Bool) : Prop :=
  ∃ cs, result.1.log = r.log ++ cs ∧ result.1.stats = cs.foldl Stats.note r.stats ∧
    (result.2 = true ↔ cs ≠ [])

/-! ## Steps -/

theorem Accounts.idle (log : s.log = r.log) (stats : s.stats = r.stats) :
    r.Accounts (s, false) :=
  ⟨[], log.trans (List.append_nil _).symm, stats, by simp⟩

theorem Accounts.busy (c : Change) (log : s.log = r.log ++ [c]) (stats : s.stats = r.stats.note c) :
    r.Accounts (s, true) :=
  ⟨[c], log, stats, by simp⟩

theorem Accounts.refl (r : Run Contacts σ) : r.Accounts (r, false) := .idle rfl rfl

theorem Accounts.seq {first second : Run Contacts σ × Bool} (h : r.Accounts first)
    (h' : first.1.Accounts second) : r.Accounts (second.1, first.2 || second.2) := by
  obtain ⟨cs, log, stats, answer⟩ := h
  obtain ⟨ds, log', stats', answer'⟩ := h'
  refine ⟨cs ++ ds, ?_, ?_, ?_⟩
  · rw [log', log, List.append_assoc]
  · rw [stats', stats, List.foldl_append]
  · rw [Bool.or_eq_true, answer, answer', ne_eq, ne_eq, ne_eq, List.append_eq_nil_iff]
    exact Classical.not_and_iff_not_or_not.symm

theorem accounts_refresh (r : Run Contacts σ) : r.Accounts (r.refresh, false) := by
  refine .idle (refresh_log r) ?_
  unfold refresh
  split <;> rfl

theorem accounts_rebuild (r : Run Contacts σ) : r.Accounts (r.rebuild, false) := .idle rfl rfl

theorem accounts_removeTrack (reason : Reason) (r : Run Contacts σ) (id : Nat) :
    r.Accounts (r.removeTrack reason id, (r.board.track? id).isSome) := by
  unfold removeTrack
  cases r.board.track? id with
  | none => exact .refl r
  | some t => exact .busy (.removed id t reason) rfl rfl

theorem accounts_absorbTrack (reason : Reason) (survivor : Nat) (r : Run Contacts σ) (id : Nat) :
    r.Accounts (r.absorbTrack reason survivor id, (r.board.track? id).isSome) := by
  obtain ⟨seen, eq⟩ := absorbTrack_eq r reason survivor id
  rw [eq]
  exact accounts_removeTrack reason r id

theorem accounts_normalizeVia {id : Nat} {t : Track} (there : r.board.track? id = some t)
    (bad : isMalformedVia t = true) : r.Accounts (r.normalizeVia id, true) := by
  refine .busy (.modified id t { t with stop := t.start }) (modifyTrack_log there _) ?_
  simp [normalizeVia, modifyTrack, there, Stats.note, Change.mendsVia, bad]

/-- Counters do not count an edit of a trace. -/
theorem accounts_modifyTrack {id : Nat} {t : Track} (there : r.board.track? id = some t)
    (trace : t.isTrace = true) (edit : Track → Track) :
    r.Accounts (r.modifyTrack edit id, true) := by
  have not_via := Track.isVia_of_isTrace trace
  refine .busy (.modified id t (edit t)) (modifyTrack_log there edit) ?_
  simp [modifyTrack, there, Stats.note, Change.mendsVia, isMalformedVia, not_via]

/-! ## Loops -/

/-- A loop of removals answers whether there was anything to remove: the first is still there. -/
theorem accounts_removals {step : Run Contacts σ → Nat → Run Contacts σ}
    (each : ∀ (q : Run Contacts σ) id, q.Accounts (step q id, (q.board.track? id).isSome))
    {ids : List Nat}
    (live : ∀ id ∈ ids, (r.board.track? id).isSome = true) :
    r.Accounts (ids.foldl step r, !ids.isEmpty) := by
  have some_answer (ids : List Nat) (q : Run Contacts σ) :
      ∃ answer, q.Accounts (ids.foldl step q, answer) := by
    induction ids generalizing q with
    | nil => exact ⟨false, .refl q⟩
    | cons id rest ih =>
      obtain ⟨answer, later⟩ := ih (step q id)
      exact ⟨_, (each q id).seq later⟩
  cases ids with
  | nil => exact .refl r
  | cons id rest =>
    have first := each r id
    rw [live id List.mem_cons_self] at first
    obtain ⟨answer, later⟩ := some_answer rest (step r id)
    exact first.seq later

theorem accounts_normalizeVia_foldl {ids : List Nat} (once : ids.Nodup)
    (bad : ∀ id ∈ ids, ∃ t, r.board.track? id = some t ∧ isMalformedVia t = true) :
    r.Accounts (ids.foldl normalizeVia r, !ids.isEmpty) := by
  induction ids generalizing r with
  | nil => exact .refl r
  | cons id rest ih =>
    obtain ⟨fresh, once⟩ := List.nodup_cons.mp once
    obtain ⟨t, there, malformed⟩ := bad id List.mem_cons_self
    refine (accounts_normalizeVia there malformed).seq (ih once fun other mem => ?_)
    obtain ⟨u, live, malformed⟩ := bad other (List.mem_cons_of_mem id mem)
    have ne : other ≠ id := fun e => fresh (e ▸ mem)
    refine ⟨u, ?_, malformed⟩
    rw [normalizeVia_board, Board.track?_modify, if_neg ne]
    exact live

theorem accounts_forEach {step : Run Contacts σ → Nat → Run Contacts σ × Bool}
    (each : ∀ (q : Run Contacts σ) id, q.Accounts (step q id)) (r : Run Contacts σ)
    (ids : List Nat) : r.Accounts (forEach step r ids) := by
  induction ids generalizing r with
  | nil => exact .refl r
  | cons id rest ih => exact (each r id).seq (ih (step r id).1)

/-! ## Vias -/

theorem accounts_normalizeVias (r : Run Contacts σ) : r.Accounts r.normalizeVias :=
  accounts_normalizeVia_foldl (Board.ids_filter_nodup r.board _) fun _ mem =>
    Board.mem_ids_filter.mp mem

theorem accounts_cleanVia (r : Run Contacts σ) (id : Nat) : r.Accounts (r.cleanVia id) := by
  unfold cleanVia
  cases there : r.board.track? id with
  | none => exact .refl r
  | some via =>
    have stacked : r.Accounts ((stackedOn r.board id via).foldl (removeTrack .duplicateVia) r,
        !(stackedOn r.board id via).isEmpty) := by
      refine accounts_removals (accounts_removeTrack .duplicateVia) fun other mem => ?_
      obtain ⟨_, t, live, _⟩ := mem_stackedOn.mp mem
      rw [live]
      rfl
    simp only
    split
    · split
      · have gone := track?_removals (fun q id => removeTrack_board q .duplicateVia id) r
          (stackedOn r.board id via) id
        rw [if_neg (not_mem_stackedOn r.board id via), there] at gone
        have last := accounts_removeTrack .viaOnThroughPad
          ((stackedOn r.board id via).foldl (removeTrack .duplicateVia) r) id
        rw [gone] at last
        have both := stacked.seq last
        rwa [Option.isSome_some, Bool.or_true] at both
      · exact stacked
    · exact .refl r

theorem accounts_cleanVias (r : Run Contacts σ) : r.Accounts r.cleanVias :=
  (accounts_refresh r).seq (accounts_forEach accounts_cleanVia r.refresh r.refresh.board.ids)

/-! ## Segments -/

theorem accounts_deleteNullSegments (r : Run Contacts σ) : r.Accounts r.deleteNullSegments := by
  refine accounts_removals (accounts_removeTrack .nullSegment) fun id mem => ?_
  obtain ⟨t, live, _⟩ := Board.mem_ids_filter.mp mem
  rw [live]
  rfl

theorem accounts_removeCopies (r : Run Contacts σ) (id : Nat) : r.Accounts (r.removeCopies id) := by
  unfold removeCopies
  cases there : r.board.track? id with
  | none => exact .refl r
  | some t =>
    refine accounts_removals (accounts_absorbTrack .duplicateTrack id) fun other mem => ?_
    obtain ⟨_, u, live, _⟩ := of_mem_copiesOf mem
    rw [live]
    rfl

theorem accounts_mergePair (r : Run Contacts σ) (id candidate : Nat) (side : Side) :
    r.Accounts (r.mergePair id candidate side) := by
  unfold mergePair
  cases there : r.board.track? id with
  | none => exact .refl r
  | some t =>
    cases thereOther : r.board.track? candidate with
    | none => exact .refl r
    | some u =>
      simp only
      split
      · exact .refl r
      · next kinds =>
        have trace : t.isTrace = true := by
          simp only [Track.mergeable, Bool.not_eq_true', Bool.not_eq_false,
            Bool.and_eq_true] at kinds
          exact kinds.1.1
        split
        · have gone := accounts_absorbTrack .mergedCollinear id r candidate
          rwa [thereOther] at gone
        split
        · exact .refl r
        · have absorbed := accounts_absorbTrack (σ := σ) .mergedCollinear id
          exact (accounts_modifyTrack there trace _).seq (absorbed _ _)

theorem accounts_mergeAt (r : Run Contacts σ) (id : Nat) (side : Side) :
    r.Accounts (r.mergeAt id side) := by
  unfold mergeAt
  simp only
  split
  · exact (accounts_refresh r).seq (accounts_mergePair r.refresh id _ side)
  · exact accounts_refresh r

theorem accounts_mergeOnce (r : Run Contacts σ) (id : Nat) : r.Accounts (r.mergeOnce id) := by
  have first := accounts_mergeAt r id .start
  unfold mergeOnce
  split
  · next s merged =>
    rw [merged] at first
    exact first
  · next s kept =>
    rw [kept] at first
    exact first.seq (accounts_mergeAt s id .stop)

/-- Later merges cannot take the answer back. -/
theorem accounts_mergeUpTo (limit : Nat) (r : Run Contacts σ) (id : Nat) :
    r.Accounts (mergeUpTo limit r id) := by
  induction limit generalizing r with
  | zero => exact .refl r
  | succ limit ih =>
    have first := accounts_mergeOnce r id
    unfold mergeUpTo
    split
    · split
      · next s merged =>
        rw [merged] at first
        exact first.seq (ih s)
      · next s kept =>
        rw [kept] at first
        exact first
    · exact .refl r

theorem accounts_mergeAll (r : Run Contacts σ) (id : Nat) : r.Accounts (r.mergeAll id) :=
  accounts_mergeUpTo r.board.trackCount r id

theorem accounts_cleanSegments (r : Run Contacts σ) : r.Accounts r.cleanSegments := by
  have copies (q : Run Contacts σ) := accounts_forEach accounts_removeCopies q q.board.ids
  have merges (q : Run Contacts σ) := accounts_forEach accounts_mergeAll q q.board.ids
  exact ((accounts_deleteNullSegments r).seq (copies _)).seq (merges _)

/-! ## Shorts and dangling tracks -/

/-- Only tracks that are looked at are condemned. -/
theorem mem_of_condemned {source : Contacts} {b : Board} {entries : List (Nat × Track)}
    {condemned : List Nat} {id : Nat}
    (mem : id ∈ entries.foldl (condemnShort source b) condemned) :
    id ∈ condemned ∨ id ∈ entries.map (·.1) := by
  induction entries generalizing condemned with
  | nil => exact .inl mem
  | cons entry rest ih =>
    rcases ih mem with before | later
    · unfold condemnShort at before
      split at before
      · rcases List.mem_append.mp before with old | new
        · exact .inl old
        · rw [List.mem_singleton.mp new]
          exact .inr List.mem_cons_self
      · exact .inl before
    · exact .inr (List.mem_cons_of_mem _ later)

theorem accounts_removeShorts (r : Run Contacts σ) : r.Accounts r.removeShorts := by
  refine (accounts_rebuild r).seq (accounts_removals (accounts_removeTrack .misConnected)
    fun id mem => Board.mem_ids.mp ?_)
  exact (mem_of_condemned mem).resolve_left List.not_mem_nil

theorem accounts_shortPass (r : Run Contacts σ) : r.Accounts r.shortPass := by
  have removed := accounts_removeShorts r
  unfold shortPass
  cases shorted : r.removeShorts with
  | mk s changed =>
    rw [shorted] at removed
    cases changed with
    | true => exact removed.seq (accounts_rebuild s)
    | false => exact removed

/-- A round is only made if something dangles. -/
theorem accounts_danglingRounds (limit : Nat) (r : Run Contacts σ) :
    r.Accounts (danglingRounds limit r) := by
  induction limit generalizing r with
  | zero => exact .refl r
  | succ limit ih =>
    unfold danglingRounds
    simp only
    split
    · exact accounts_refresh r
    · next some_loose =>
      have live (id : Nat)
          (mem : id ∈ r.refresh.board.ids.filter (dangles r.refresh.contacts r.refresh.board)) :
          (r.refresh.board.track? id).isSome = true :=
        Board.mem_ids.mp (List.mem_filter.mp mem).1
      have removed := accounts_removals (accounts_removeTrack .dangling) live
      rw [Bool.eq_false_iff.mpr some_loose] at removed
      have round := (accounts_refresh r).seq removed
      exact round.seq (ih _)

theorem accounts_danglingPass (o : Options) (r : Run Contacts σ) :
    r.Accounts (danglingPass o r) := by
  have rounds : r.Accounts r.refresh.deleteDangling :=
    (accounts_refresh r).seq (accounts_danglingRounds r.refresh.board.trackCount r.refresh)
  rw [danglingPass_eq]
  split
  · next again =>
    have both := rounds.seq (accounts_cleanSegments r.refresh.deleteDangling.1)
    rwa [(Bool.and_eq_true_iff.mp again).1, Bool.true_or] at both
  · exact rounds

/-! ## A whole cleaning -/

theorem accounts_when {pass : Run Contacts σ → Run Contacts σ × Bool}
    (accounts : ∀ q : Run Contacts σ, q.Accounts (pass q)) (on : Bool) (r : Run Contacts σ) :
    r.Accounts (when on pass r) := by
  cases on with
  | true => exact accounts r
  | false => exact .refl r

theorem accounts_segmentPass (o : Options) (r : Run Contacts σ) :
    r.Accounts (segmentPass o r) := by
  unfold segmentPass
  split
  · exact accounts_cleanSegments r
  split
  · exact accounts_deleteNullSegments r
  · exact .refl r

theorem accounts_cleanup (o : Options) (r : Run Contacts σ) : r.Accounts (cleanup o r) := by
  by_cases on : o.anyEnabled = true
  · have vias (q : Run Contacts σ) : q.Accounts (when o.cleanVias cleanVias q.rebuild) :=
      (accounts_rebuild q).seq (accounts_when accounts_cleanVias o.cleanVias q.rebuild)
    have shorts := accounts_when (σ := σ) accounts_shortPass o.removeMisconnected
    have dangling := accounts_when (σ := σ) (accounts_danglingPass o) o.deleteDangling
    rw [cleanup_eq on]
    exact ((((accounts_normalizeVias r).seq (vias _)).seq (accounts_segmentPass o _)).seq
      (shorts _)).seq (dangling _)
  · rw [cleanup, if_neg on]
    exact .refl r

end Run

namespace Board

theorem clean_stats (b : Board) (o : Options) :
    (b.clean o).stats = (b.clean o).changes.foldl Stats.note {} := by
  obtain ⟨cs, log, stats, _⟩ := Run.accounts_cleanup o (Run.start b Observer.silent ())
  rw [clean_changes, clean_eq]
  exact stats.trans (congrArg _ log.symm)

theorem clean_modified_iff (b : Board) (o : Options) :
    (b.clean o).modified = true ↔ (b.clean o).changes ≠ [] := by
  obtain ⟨cs, log, _, answer⟩ := Run.accounts_cleanup o (Run.start b Observer.silent ())
  rw [clean_changes, clean_modified, answer]
  exact not_congr (log.trans (List.nil_append cs) ▸ Iff.rfl)

/-- Flag, board, counters and log of a cleaning agree. Nothing is changed unless the answer is yes,
which it is just if something is logged. Each counter counts the removals of its reason, or the vias
that were mended, so all of them together tell how many tracks are gone; and an edit is of a via, or
the removal of the track that a merge took in comes right after it. -/
theorem clean_accounts (b : Board) (o : Options) :
    let c := b.clean o
    (c.modified = true ↔ c.changes ≠ []) ∧ (c.modified = false → c.board = b) ∧
      (∀ reason, c.stats.removals reason = c.changes.countP (·.isFor reason)) ∧
      c.stats.normalizedVias = c.changes.countP (·.mendsVia) ∧
      c.stats.totalRemoved = (Commit.mk c.changes).removedCount ∧
      c.board.trackCount + c.stats.totalRemoved = b.trackCount ∧ EditsAccounted c.changes := by
  intro c
  have moves := clean_moves b o
  have total : c.stats.totalRemoved = c.changes.countP (·.isRemoval) := by
    rw [clean_stats, Stats.notes_count Stats.totalRemoved _ Stats.totalRemoved_note]
    exact Nat.zero_add _
  refine ⟨clean_modified_iff b o, fun idle => ?_, fun reason => ?_, ?_, total, ?_,
    moves.editsAccounted⟩
  · have none_logged : c.changes = [] := Decidable.byContradiction fun logged => by
      have answer : c.modified = true := (clean_modified_iff b o).mpr logged
      rw [idle] at answer
      cases answer
    rw [none_logged] at moves
    exact moves.eq_of_nil
  · rw [clean_stats,
      Stats.notes_count (fun s => s.removals reason) _ (Stats.removals_note reason)]
    cases reason <;> exact Nat.zero_add _
  · rw [clean_stats, Stats.notes_count Stats.normalizedVias _ Stats.normalizedVias_note]
    exact Nat.zero_add _
  · rw [total]
    exact moves.trackCount

end Board
end CopperTidy
