import CopperTidy.Proofs.Passes

/-! # A cleaning without a snapshot

A run that asks the board itself, at the moment of the question, does what a run with a snapshot
does: `scanning_cleanup`. Where a pass asks after it has changed the board, either the snapshot has
been refreshed since, or only tracks are gone since it was taken, and then the pads under a live
track are still those of the snapshot.
-/

namespace CopperTidy
set_option autoImplicit false

variable {σ : Type}

namespace Run

/-- The run with its snapshot thrown away. -/
def scanning (r : Run Contacts σ) : Run Scan σ where
  board := r.board
  contacts := {}
  log := r.log
  stats := r.stats
  observer := r.observer
  seen := r.seen

@[simp] theorem scanning_board (r : Run Contacts σ) : r.scanning.board = r.board := rfl

/-- What a step did, with the snapshot thrown away. -/
def scanned (result : Run Contacts σ × Bool) : Run Scan σ × Bool :=
  (result.1.scanning, result.2)

/-- What a cleaning shows to its caller. -/
def report {ι : Type} (result : Run ι σ × Bool) : Cleaned × σ :=
  (⟨result.2, result.1.board, result.1.log, result.1.stats⟩, result.1.seen)

end Run

/-- A cleaning that looks at the board for every answer. -/
def Board.scanWith (b : Board) (o : Options) (observer : Observer σ) (seen : σ) : Cleaned × σ :=
  Run.report ((Run.start (ι := Scan) b observer seen).cleanup o)

namespace Run

variable {r : Run Contacts σ}

/-! ## Steps that ask nothing -/

theorem refresh_scan (r : Run Scan σ) : r.refresh = r := rfl

theorem rebuild_scan (r : Run Scan σ) : r.rebuild = r := rfl

theorem scanning_refresh (r : Run Contacts σ) : r.refresh.scanning = r.scanning := by
  unfold refresh
  split <;> rfl

theorem scanning_removeTrack (reason : Reason) (r : Run Contacts σ) (id : Nat) :
    r.scanning.removeTrack reason id = (r.removeTrack reason id).scanning := by
  unfold removeTrack
  rw [scanning_board]
  cases r.board.track? id <;> rfl

theorem scanning_reattach (r : Run Contacts σ) (survivor : Nat) (removed : Track) :
    r.scanning.reattach survivor removed = (r.reattach survivor removed).scanning := by
  unfold reattach
  rw [scanning_board]
  cases r.board.track? survivor <;> rfl

theorem scanning_absorbTrack (reason : Reason) (survivor : Nat) (r : Run Contacts σ) (id : Nat) :
    r.scanning.absorbTrack reason survivor id = (r.absorbTrack reason survivor id).scanning := by
  unfold absorbTrack
  rw [scanning_board]
  cases r.board.track? id with
  | none => rfl
  | some t =>
    show (r.scanning.removeTrack reason id).reattach survivor t = _
    rw [scanning_removeTrack, scanning_reattach]

theorem scanning_modifyTrack (edit : Track → Track) (r : Run Contacts σ) (id : Nat) :
    r.scanning.modifyTrack edit id = (r.modifyTrack edit id).scanning := by
  unfold modifyTrack
  rw [scanning_board]
  cases r.board.track? id <;> rfl

theorem scanning_normalizeVia (r : Run Contacts σ) (id : Nat) :
    r.scanning.normalizeVia id = (r.normalizeVia id).scanning := by
  unfold normalizeVia
  rw [scanning_modifyTrack]
  rfl

theorem scanning_normalizeVias (r : Run Contacts σ) :
    r.scanning.normalizeVias = scanned r.normalizeVias := by
  unfold normalizeVias
  simp only [scanning_board]
  rw [List.foldl_hom scanning scanning_normalizeVia]
  rfl

theorem scanning_removals (reason : Reason) (r : Run Contacts σ) (ids : List Nat) :
    ids.foldl (removeTrack reason) r.scanning = (ids.foldl (removeTrack reason) r).scanning :=
  List.foldl_hom scanning (scanning_removeTrack reason)

theorem scanning_deleteNullSegments (r : Run Contacts σ) :
    r.scanning.deleteNullSegments = scanned r.deleteNullSegments := by
  unfold deleteNullSegments
  simp only [scanning_board]
  rw [scanning_removals]
  rfl

theorem scanning_removeCopies (r : Run Contacts σ) (id : Nat) :
    r.scanning.removeCopies id = scanned (r.removeCopies id) := by
  unfold removeCopies
  rw [scanning_board]
  cases r.board.track? id with
  | none => rfl
  | some t =>
    simp only
    rw [List.foldl_hom scanning (scanning_absorbTrack .duplicateTrack id)]
    rfl

/-! ## Loops -/

/-- A loop whose steps agree as long as an invariant holds. -/
theorem scanning_forEach {step : Run Contacts σ → Nat → Run Contacts σ × Bool}
    {step' : Run Scan σ → Nat → Run Scan σ × Bool} {P : Run Contacts σ → Prop}
    (agree : ∀ r id, P r → step' r.scanning id = scanned (step r id))
    (keeps : ∀ r id, P r → P (step r id).1) (p : P r) (ids : List Nat) :
    forEach step' r.scanning ids = scanned (forEach step r ids) := by
  induction ids generalizing r with
  | nil => rfl
  | cons id rest ih =>
    unfold forEach
    rw [agree r id p]
    show ((forEach step' (step r id).1.scanning rest).1, _) = _
    rw [ih (keeps r id p)]
    rfl

/-! ## Vias -/

theorem scanning_onThroughPad (h : r.Faded) {id : Nat} {t : Track}
    (there : r.board.track? id = some t) : r.scanning.onThroughPad id = r.onThroughPad id := by
  unfold onThroughPad
  rw [h.padsOf there]
  simp [ContactSource.padsOf, there]

theorem scanning_cleanVia (h : r.Coherent) (faded : r.Faded) (id : Nat) :
    r.scanning.cleanVia id = scanned (r.cleanVia id) := by
  unfold cleanVia
  rw [scanning_board]
  cases there : r.board.track? id with
  | none => rfl
  | some via =>
    obtain ⟨_, fades, contacts⟩ := goes_stacked (o := {}) rfl h there
    have live := fades.stays there (not_mem_stackedOn _ _ _)
    have faded' := faded.fading (.of_fades contacts fades)
    simp only
    rw [scanning_removals, scanning_onThroughPad faded' live, scanning_removeTrack]
    split
    · split <;> rfl
    · rfl

theorem scanning_cleanVias (h : r.Coherent) : r.scanning.cleanVias = scanned r.cleanVias := by
  have fresh := h.refresh_fresh
  have each (q : Run Contacts σ) (id : Nat) (p : q.Coherent ∧ q.Faded) :
      (q.cleanVia id).1.Coherent ∧ (q.cleanVia id).1.Faded :=
    ⟨(goes_cleanVia (o := {}) rfl p.1 p.2 id).coherent, p.2.fading (fading_cleanVia q id)⟩
  unfold cleanVias
  simp only [refresh_scan]
  rw [← scanning_refresh r]
  exact scanning_forEach (fun q id p => scanning_cleanVia p.1 p.2 id) each
    ⟨fresh.coherent, fresh.faded⟩ r.refresh.board.ids

/-! ## Segments -/

theorem scanning_mergePair (h : r.Fresh) (id candidate : Nat) (side : Side) :
    r.scanning.mergePair id candidate side = scanned (r.mergePair id candidate side) := by
  unfold mergePair
  rw [scanning_board, h.onPad]
  cases r.board.track? id with
  | none => rfl
  | some t =>
    cases r.board.track? candidate with
    | none => rfl
    | some u =>
      simp only
      rw [scanning_absorbTrack, scanning_modifyTrack, scanning_absorbTrack]
      split
      · rfl
      split
      · rfl
      split <;> rfl

theorem scanning_mergeAt (h : r.Coherent) (id : Nat) (side : Side) :
    r.scanning.mergeAt id side = scanned (r.mergeAt id side) := by
  have fresh := h.refresh_fresh
  have attached : r.scanning.attached id side = r.refresh.attached id side := by
    rw [← scanning_refresh r]
    exact (fresh.connectedAt id side _).symm
  unfold mergeAt
  simp only [refresh_scan]
  rw [attached]
  split
  · rw [← scanning_refresh r]
    exact scanning_mergePair fresh id _ side
  · rw [← scanning_refresh r]
    rfl

theorem scanning_mergeOnce (h : r.Coherent) (id : Nat) :
    r.scanning.mergeOnce id = scanned (r.mergeOnce id) := by
  have first := (goes_mergeAt (o := {}) rfl h id .start).coherent
  unfold mergeOnce
  rw [scanning_mergeAt h]
  cases started : r.mergeAt id .start with
  | mk s merged =>
    rw [started] at first
    cases merged with
    | true => rfl
    | false => exact scanning_mergeAt first id .stop

theorem scanning_mergeUpTo (limit : Nat) (h : r.Coherent) (id : Nat) :
    mergeUpTo limit r.scanning id = scanned (mergeUpTo limit r id) := by
  induction limit generalizing r with
  | zero => rfl
  | succ limit ih =>
    have once := (goes_mergeOnce (o := {}) rfl h id).coherent
    unfold mergeUpTo
    rw [scanning_board, scanning_mergeOnce h]
    split
    · cases step : r.mergeOnce id with
      | mk s merged =>
        rw [step] at once
        cases merged with
        | true => exact congrArg (fun result => (result.1, true)) (ih once)
        | false => rfl
    · rfl

theorem scanning_mergeAll (h : r.Coherent) (id : Nat) :
    r.scanning.mergeAll id = scanned (r.mergeAll id) := scanning_mergeUpTo _ h id

theorem scanning_copies (r : Run Contacts σ) :
    forEach removeCopies r.scanning r.board.ids = scanned (forEach removeCopies r r.board.ids) :=
  scanning_forEach (P := fun _ => True) (fun q id _ => scanning_removeCopies q id)
    (fun _ _ _ => trivial) trivial r.board.ids

theorem scanning_merges (h : r.Coherent) :
    forEach mergeAll r.scanning r.board.ids = scanned (forEach mergeAll r r.board.ids) :=
  scanning_forEach (fun _ id coherent => scanning_mergeAll coherent id)
    (fun q id coherent => (goes_mergeUpTo (o := {}) rfl q.board.trackCount coherent id).coherent) h
    r.board.ids

theorem scanning_cleanSegments (h : r.Coherent) :
    r.scanning.cleanSegments = scanned r.cleanSegments := by
  have null := (goes_deleteNullSegments (o := {}) (.inl rfl) h).coherent
  unfold cleanSegments
  rw [scanning_deleteNullSegments]
  cases nulls : r.deleteNullSegments with
  | mk q changed =>
    rw [nulls] at null
    have copies : Coherent (forEach removeCopies q q.board.ids).1 :=
      (goes_withoutCopies (o := {}) rfl null).coherent
    simp only [scanned, scanning_board, scanning_copies, scanning_merges copies]

/-! ## Shorts -/

theorem shorts_build (b : Board) : shorts (Contacts.build b) b = shorts Scan.mk b := by
  have pads : touchesForeignPad (Contacts.build b) b = touchesForeignPad Scan.mk b := by
    funext id t
    unfold touchesForeignPad
    rw [Contacts.padsOf_build]
  have tracks : touchesForeignTrack (Contacts.build b) b = touchesForeignTrack Scan.mk b := by
    funext condemned id t
    unfold touchesForeignTrack
    rw [Contacts.tracksOf_build]
  unfold shorts condemnShort
  rw [pads, tracks]

theorem scanning_removeShorts (r : Run Contacts σ) :
    r.scanning.removeShorts = scanned r.removeShorts := by
  have condemned : shorts r.scanning.contacts r.scanning.board =
      shorts r.rebuild.contacts r.rebuild.board := (shorts_build r.board).symm
  have removed := scanning_removals .misConnected r.rebuild
  unfold removeShorts
  simp only [rebuild_scan]
  rw [condemned]
  exact Prod.ext (removed _) rfl

theorem scanning_shortPass (r : Run Contacts σ) :
    r.scanning.shortPass = scanned r.shortPass := by
  unfold shortPass
  rw [scanning_removeShorts]
  obtain ⟨s, changed⟩ := r.removeShorts
  cases changed <;> rfl

/-! ## Dangling tracks -/

theorem danglingRounds_scan (limit : Nat) (r : Run Scan σ) :
    let condemned := r.board.ids.filter (dangles Scan.mk r.board)
    danglingRounds (limit + 1) r =
      if condemned.isEmpty then (r, false)
      else ((danglingRounds limit (condemned.foldl (removeTrack .dangling) r)).1, true) := rfl

theorem scanning_danglingRounds (limit : Nat) (h : r.Coherent) :
    danglingRounds limit r.scanning = scanned (danglingRounds limit r) := by
  induction limit generalizing r with
  | zero => rfl
  | succ limit ih =>
    have fresh := h.refresh_fresh
    have condemned : r.refresh.board.ids.filter (dangles r.refresh.contacts r.refresh.board) =
        r.refresh.board.ids.filter (dangles Scan.mk r.refresh.board) :=
      List.filter_congr fun id _ => fresh.dangles_eq id
    rw [← scanning_refresh r, danglingRounds_scan, danglingRounds]
    simp only [scanning_board, condemned, scanning_removals]
    split
    · rfl
    · exact congrArg (fun result => (result.1, true))
        (ih (coherent_removals fresh.coherent .dangling _))

theorem coherent_danglingRounds (limit : Nat) (h : r.Coherent) :
    (danglingRounds limit r).1.Coherent := by
  induction limit generalizing r with
  | zero => exact h
  | succ limit ih =>
    have fresh := h.refresh_fresh
    unfold danglingRounds
    simp only
    split
    · exact fresh.coherent
    · exact ih (coherent_removals fresh.coherent .dangling _)

theorem scanning_danglingPass (o : Options) (h : r.Coherent) :
    danglingPass o r.scanning = scanned (danglingPass o r) := by
  have fresh := h.refresh_fresh
  have rounds : r.scanning.refresh.deleteDangling = scanned r.refresh.deleteDangling := by
    rw [refresh_scan, ← scanning_refresh r]
    exact scanning_danglingRounds _ fresh.coherent
  have coherent : r.refresh.deleteDangling.1.Coherent :=
    coherent_danglingRounds _ fresh.coherent
  rw [danglingPass_eq, danglingPass_eq, rounds]
  generalize r.refresh.deleteDangling = q at coherent
  have again : (scanned q).1.cleanSegments = scanned q.1.cleanSegments :=
    scanning_cleanSegments coherent
  rw [again, apply_ite scanned]
  rfl

/-! ## A whole cleaning -/

theorem scanning_when {pass : Run Contacts σ → Run Contacts σ × Bool}
    {pass' : Run Scan σ → Run Scan σ × Bool} (on : Bool)
    (agree : pass' r.scanning = scanned (pass r)) :
    when on pass' r.scanning = scanned (when on pass r) := by
  cases on with
  | true => exact agree
  | false => rfl

theorem scanning_segmentPass (o : Options) (h : r.Coherent) :
    segmentPass o r.scanning = scanned (segmentPass o r) := by
  unfold segmentPass
  rw [scanning_cleanSegments h, scanning_deleteNullSegments]
  split
  · rfl
  split <;> rfl

/-- Whatever the run knows of contacts when the cleaning begins. -/
theorem scanning_cleanup (o : Options) (r : Run Contacts σ) :
    cleanup o r.scanning = scanned (cleanup o r) := by
  by_cases on : o.anyEnabled = true
  · have ends := coherent_afterEnds r
    have vias : when o.cleanVias cleanVias (scanned r.normalizeVias).1.rebuild =
        scanned (when o.cleanVias cleanVias (afterEnds r)) :=
      scanning_when (r := afterEnds r) o.cleanVias (scanning_cleanVias ends)
    have segments : segmentPass o (scanned (when o.cleanVias cleanVias (afterEnds r))).1 =
        scanned (segmentPass o (afterVias o r)) :=
      scanning_segmentPass o (coherent_afterVias o r)
    have shorts : when o.removeMisconnected shortPass (scanned (segmentPass o (afterVias o r))).1 =
        scanned (when o.removeMisconnected shortPass (afterSegments o r)) :=
      scanning_when o.removeMisconnected (scanning_shortPass (afterSegments o r))
    have dangling : when o.deleteDangling (danglingPass o)
          (scanned (when o.removeMisconnected shortPass (afterSegments o r))).1 =
        scanned (when o.deleteDangling (danglingPass o) (afterShorts o r)) :=
      scanning_when o.deleteDangling (scanning_danglingPass o (coherent_afterShorts o r))
    rw [cleanup_eq on, cleanup_eq on, scanning_normalizeVias, vias, segments, shorts, dangling]
    rfl
  · unfold cleanup
    rw [if_neg on, if_neg on]
    rfl

/-- No answer of a snapshot decides anything: a cleaning does to the board, logs, counts and answers
what it would if it scanned the board for each question. So does a cleaning that goes on from any
other run, however old the snapshot it begins with. -/
theorem cleaning_eq_scanned (o : Options) :
    (∀ b : Board, ∀ observer : Observer σ, ∀ seen,
        b.cleanWith o observer seen = b.scanWith o observer seen) ∧
      ∀ r : Run Contacts σ, report (r.cleanup o) = report (r.scanning.cleanup o) := by
  have same (r : Run Contacts σ) : report (r.cleanup o) = report (r.scanning.cleanup o) := by
    rw [scanning_cleanup]
    rfl
  refine ⟨fun b observer seen => ?_, same⟩
  exact same (start b observer seen)

end Run
end CopperTidy
