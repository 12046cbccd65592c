import CopperTidy.Proofs.Renaming.Mirror
import CopperTidy.Proofs.Scanning

/-! # Runs on boards with other ids and uuids

Two runs side by side, on boards that show the same tracks under other names. Each step of one run is
a step of the other: what is looked for is found under the corresponding ids and in the same order,
the same is done to it, and the log tells the same of it.
-/

namespace CopperTidy.Renaming
set_option autoImplicit false
open Run

variable {σ τ : Type} {ρ : Renaming}

/-- The second run has done to its board what the first one has done to its own. -/
structure Follows (ρ : Renaming) (r : Run Scan σ) (s : Run Scan τ) : Prop where
  board : ρ.Mirrors r.board s.board
  log : s.log = r.log.map ρ.change
  stats : s.stats = r.stats

/-- Two steps that lead to corresponding runs, and tell the same. -/
structure Agrees (ρ : Renaming) (first : Run Scan σ × Bool) (second : Run Scan τ × Bool) : Prop where
  run : ρ.Follows first.1 second.1
  told : second.2 = first.2

variable {r : Run Scan σ} {s : Run Scan τ}

theorem Follows.idle (h : ρ.Follows r s) (changed : Bool) : ρ.Agrees (r, changed) (s, changed) :=
  ⟨h, rfl⟩

/-! ## Single changes -/

theorem Follows.removeTrack (h : ρ.Follows r s) (reason : Reason) (id : Nat) :
    ρ.Follows (r.removeTrack reason id) (s.removeTrack reason (ρ.number id)) := by
  unfold Run.removeTrack
  cases there : r.board.track? id with
  | none =>
    rw [h.board.track?_none there]
    exact h
  | some t =>
    rw [h.board.track?_some there]
    refine ⟨h.board.remove id, ?_, ?_⟩
    · simp only [h.log, List.map_append]
      rfl
    · simp only [h.stats]

theorem Follows.absorbTrack (h : ρ.Follows r s) (reason : Reason) (survivor id : Nat) :
    ρ.Follows (r.absorbTrack reason survivor id)
      (s.absorbTrack reason (ρ.number survivor) (ρ.number id)) := by
  obtain ⟨seen, absorbed⟩ := absorbTrack_eq r reason survivor id
  obtain ⟨seen', absorbed'⟩ := absorbTrack_eq s reason (ρ.number survivor) (ρ.number id)
  obtain ⟨board, log, stats⟩ := h.removeTrack reason id
  rw [absorbed, absorbed']
  exact ⟨board, log, stats⟩

theorem Follows.modifyTrack (h : ρ.Follows r s) (id : Nat) {edit edit' : Track → Track}
    (same : ∀ t, edit' (ρ.track id t) = ρ.track id (edit t)) :
    ρ.Follows (r.modifyTrack edit id) (s.modifyTrack edit' (ρ.number id)) := by
  unfold Run.modifyTrack
  cases there : r.board.track? id with
  | none =>
    rw [h.board.track?_none there]
    exact h
  | some t =>
    rw [h.board.track?_some there]
    refine ⟨h.board.modify id same, ?_, h.stats⟩
    simp only [h.log, List.map_append, same]
    rfl

/-! ## Loops -/

theorem Follows.foldl {step : Run Scan σ → Nat → Run Scan σ} {step' : Run Scan τ → Nat → Run Scan τ}
    (each : ∀ r s id, ρ.Follows r s → ρ.Follows (step r id) (step' s (ρ.number id)))
    (h : ρ.Follows r s) (ids : List Nat) :
    ρ.Follows (ids.foldl step r) ((ids.map ρ.number).foldl step' s) := by
  induction ids generalizing r s with
  | nil => exact h
  | cons id rest ih => exact ih (each r s id h)

theorem Follows.removals (h : ρ.Follows r s) (reason : Reason) (ids : List Nat) :
    ρ.Follows (ids.foldl (Run.removeTrack reason) r)
      ((ids.map ρ.number).foldl (Run.removeTrack reason) s) :=
  h.foldl (fun _ _ id h => h.removeTrack reason id) ids

theorem Follows.forEach {step : Run Scan σ → Nat → Run Scan σ × Bool}
    {step' : Run Scan τ → Nat → Run Scan τ × Bool}
    (each : ∀ r s id, ρ.Follows r s → ρ.Agrees (step r id) (step' s (ρ.number id)))
    (h : ρ.Follows r s) (ids : List Nat) :
    ρ.Agrees (Run.forEach step r ids) (Run.forEach step' s (ids.map ρ.number)) := by
  induction ids generalizing r s with
  | nil => exact h.idle false
  | cons id rest ih =>
    have first := each r s id h
    have later := ih first.run
    exact ⟨later.run, congrArg₂ or first.told later.told⟩

/-! ## Vias -/

theorem Follows.normalizeVia (h : ρ.Follows r s) (id : Nat) :
    ρ.Follows (r.normalizeVia id) (s.normalizeVia (ρ.number id)) := by
  obtain ⟨board, log, stats⟩ : ρ.Follows (r.modifyTrack (fun t => { t with stop := t.start }) id)
      (s.modifyTrack (fun t => { t with stop := t.start }) (ρ.number id)) :=
    h.modifyTrack id fun _ => rfl
  refine ⟨board, log, ?_⟩
  show ({ Run.stats _ with normalizedVias := _ } : Stats) = _
  rw [stats]
  rfl

theorem Follows.normalizeVias (h : ρ.Follows r s) :
    ρ.Agrees r.normalizeVias s.normalizeVias := by
  have malformed := h.board.ids_filter (p := fun entry => isMalformedVia entry.2)
    (q := fun entry => isMalformedVia entry.2) fun _ => rfl
  unfold Run.normalizeVias
  simp only [malformed, List.isEmpty_map]
  exact ⟨h.foldl (fun _ _ id h => h.normalizeVia id) _, rfl⟩

theorem Mirrors.stackedOn {b c : Board} (h : ρ.Mirrors b c) (id : Nat) (via : Track) :
    Run.stackedOn c (ρ.number id) (ρ.track id via) = (Run.stackedOn b id via).map ρ.number := by
  rw [Run.stackedOn, h.tracksAfter, Mirrors.filter_map _ fun _ _ => rfl, Mirrors.fst_map]
  rfl

theorem Follows.onThroughPad (h : ρ.Follows r s) (id : Nat) :
    s.onThroughPad (ρ.number id) = r.onThroughPad id := by
  unfold Run.onThroughPad Board.pad?
  rw [h.board.pads]
  exact congrArg (List.any · _) (h.board.padsOf id)

theorem Follows.cleanVia (h : ρ.Follows r s) (id : Nat) :
    ρ.Agrees (r.cleanVia id) (s.cleanVia (ρ.number id)) := by
  unfold Run.cleanVia
  cases there : r.board.track? id with
  | none =>
    rw [h.board.track?_none there]
    exact h.idle false
  | some via =>
    rw [h.board.track?_some there]
    have removed := h.removals .duplicateVia (Run.stackedOn r.board id via)
    have through : (ρ.track id via).isThroughVia = via.isThroughVia := rfl
    simp only [through, h.board.stackedOn, removed.onThroughPad, List.isEmpty_map]
    split
    · split
      · exact (removed.removeTrack .viaOnThroughPad id).idle true
      · exact removed.idle _
    · exact h.idle false

theorem Follows.cleanVias (h : ρ.Follows r s) : ρ.Agrees r.cleanVias s.cleanVias := by
  have loop := h.forEach (fun _ _ id h => h.cleanVia id) r.board.ids
  rw [← h.board.ids] at loop
  exact loop

/-! ## Segments -/

theorem Follows.deleteNullSegments (h : ρ.Follows r s) :
    ρ.Agrees r.deleteNullSegments s.deleteNullSegments := by
  have null := h.board.ids_filter (p := fun entry => entry.2.isNull)
    (q := fun entry => entry.2.isNull) fun _ => rfl
  unfold Run.deleteNullSegments
  simp only [null, List.isEmpty_map]
  exact ⟨h.removals .nullSegment _, rfl⟩

theorem Mirrors.copiesOf {b c : Board} (h : ρ.Mirrors b c) (id : Nat) (t : Track) :
    Run.copiesOf c (ρ.number id) (ρ.track id t) = (Run.copiesOf b id t).map ρ.number := by
  rw [Run.copiesOf, h.tracksAfter, List.takeWhile_map, Mirrors.filter_map _ fun _ _ => rfl,
    Mirrors.fst_map]
  rfl

theorem Follows.removeCopies (h : ρ.Follows r s) (id : Nat) :
    ρ.Agrees (r.removeCopies id) (s.removeCopies (ρ.number id)) := by
  unfold Run.removeCopies
  cases there : r.board.track? id with
  | none =>
    rw [h.board.track?_none there]
    exact h.idle false
  | some t =>
    rw [h.board.track?_some there]
    simp only [h.board.copiesOf, List.isEmpty_map]
    exact ⟨h.foldl (fun _ _ other h => h.absorbTrack .duplicateTrack id other) _, rfl⟩

theorem Follows.mergePair (h : ρ.Follows r s) (id candidate : Nat) (side : Side) :
    ρ.Agrees (r.mergePair id candidate side)
      (s.mergePair (ρ.number id) (ρ.number candidate) side) := by
  unfold Run.mergePair
  cases there : r.board.track? id with
  | none =>
    rw [h.board.track?_none there]
    exact h.idle false
  | some t =>
    rw [h.board.track?_some there]
    cases thereC : r.board.track? candidate with
    | none =>
      rw [h.board.track?_none thereC]
      exact h.idle false
    | some u =>
      rw [h.board.track?_some thereC]
      have kinds : (ρ.track id t).mergeable (ρ.track candidate u) = t.mergeable u := rfl
      have ends : (ρ.track id t).sameEnds (ρ.track candidate u) = t.sameEnds u := rfl
      have line : (ρ.track id t).collinear (ρ.track candidate u) = t.collinear u := rfl
      have pad : ContactSource.onPad s.contacts s.board (ρ.number id) side =
          ContactSource.onPad r.contacts r.board id side := h.board.onPad id side
      have stretched : ρ.Follows
          (r.modifyTrack (fun v => v.setPoint (farEnd u (t.point side)) side) id)
          (s.modifyTrack (fun v => v.setPoint
            (farEnd (ρ.track candidate u) ((ρ.track id t).point side)) side) (ρ.number id)) :=
        h.modifyTrack id fun v => by cases side <;> rfl
      simp only [kinds, ends, line, pad]
      split
      · exact h.idle false
      split
      · exact (h.absorbTrack .mergedCollinear id candidate).idle true
      split
      · exact h.idle false
      · exact (stretched.absorbTrack .mergedCollinear id candidate).idle true

theorem Follows.mergeAt (h : ρ.Follows r s) (id : Nat) (side : Side) :
    ρ.Agrees (r.mergeAt id side) (s.mergeAt (ρ.number id) side) := by
  have attached : s.attached (ρ.number id) side = (r.attached id side).map ρ.number :=
    h.board.connectedAt id side { sameNet := true }
  unfold Run.mergeAt
  simp only [refresh_scan, attached]
  cases r.attached id side with
  | nil => exact h.idle false
  | cons first rest =>
    cases rest with
    | nil => exact h.mergePair id first side
    | cons => exact h.idle false

theorem Follows.mergeOnce (h : ρ.Follows r s) (id : Nat) :
    ρ.Agrees (r.mergeOnce id) (s.mergeOnce (ρ.number id)) := by
  obtain ⟨run, told⟩ := h.mergeAt id .start
  unfold Run.mergeOnce
  generalize r.mergeAt id .start = first at run told
  generalize s.mergeAt (ρ.number id) .start = second at run told
  obtain ⟨first, merged⟩ := first
  obtain ⟨second, merged'⟩ := second
  cases told
  cases merged with
  | true => exact run.idle true
  | false => exact run.mergeAt id .stop

theorem Follows.mergeUpTo (limit : Nat) (h : ρ.Follows r s) (id : Nat) :
    ρ.Agrees (Run.mergeUpTo limit r id) (Run.mergeUpTo limit s (ρ.number id)) := by
  induction limit generalizing r s with
  | zero => exact h.idle false
  | succ limit ih =>
    obtain ⟨run, told⟩ := h.mergeOnce id
    have isTrace : (s.board.track? (ρ.number id)).any Track.isTrace =
        (r.board.track? id).any Track.isTrace := h.board.any_track? id fun _ => rfl
    unfold Run.mergeUpTo
    rw [isTrace]
    generalize r.mergeOnce id = first at run told
    generalize s.mergeOnce (ρ.number id) = second at run told
    obtain ⟨first, merged⟩ := first
    obtain ⟨second, merged'⟩ := second
    cases told
    split
    · cases merged with
      | true => exact (ih run).run.idle true
      | false => exact run.idle false
    · exact h.idle false

theorem Follows.mergeAll (h : ρ.Follows r s) (id : Nat) :
    ρ.Agrees (r.mergeAll id) (s.mergeAll (ρ.number id)) := by
  rw [Run.mergeAll, Run.mergeAll, h.board.trackCount]
  exact h.mergeUpTo _ id

theorem Follows.cleanSegments (h : ρ.Follows r s) :
    ρ.Agrees r.cleanSegments s.cleanSegments := by
  have null := h.deleteNullSegments
  unfold Run.cleanSegments
  generalize r.deleteNullSegments = first at null
  generalize s.deleteNullSegments = second at null
  have copies := null.run.forEach (fun _ _ id h => h.removeCopies id) first.1.board.ids
  rw [← null.run.board.ids] at copies
  have merged := copies.run.forEach (fun _ _ id h => h.mergeAll id)
    (Run.forEach Run.removeCopies first.1 first.1.board.ids).1.board.ids
  rw [← copies.run.board.ids] at merged
  exact ⟨merged.run, congrArg₂ or (congrArg₂ or null.told copies.told) merged.told⟩

/-! ## Shorts -/

theorem Mirrors.condemnShort {b c : Board} (h : ρ.Mirrors b c) (condemned : List Nat)
    (entry : Nat × Track) :
    CopperTidy.condemnShort Scan.mk c (condemned.map ρ.number) (ρ.entry entry) =
      (CopperTidy.condemnShort Scan.mk b condemned entry).map ρ.number := by
  obtain ⟨id, t⟩ := entry
  have pads : touchesForeignPad Scan.mk c (ρ.number id) (ρ.track id t) =
      touchesForeignPad Scan.mk b id t := by
    unfold touchesForeignPad Board.pad?
    rw [h.padsOf, h.pads]
    rfl
  have tracks : touchesForeignTrack Scan.mk c (condemned.map ρ.number) (ρ.number id) (ρ.track id t) =
      touchesForeignTrack Scan.mk b condemned id t := by
    unfold touchesForeignTrack
    rw [h.tracksOf, List.any_map]
    refine congrArg _ (funext fun other => ?_)
    rw [Function.comp_apply, h.contains_number,
      h.any_track? other (p := fun u => u.net != t.net) fun _ => rfl]
  unfold CopperTidy.condemnShort
  show (if (touchesForeignPad Scan.mk c (ρ.number id) (ρ.track id t) ||
    touchesForeignTrack Scan.mk c (condemned.map ρ.number) (ρ.number id) (ρ.track id t)) then _
    else _) = _
  rw [pads, tracks]
  split
  · show condemned.map ρ.number ++ [id].map ρ.number = _
    exact List.map_append.symm
  · rfl

theorem Mirrors.shorts {b c : Board} (h : ρ.Mirrors b c) :
    CopperTidy.shorts Scan.mk c = (CopperTidy.shorts Scan.mk b).map ρ.number := by
  have run (entries : List (Nat × Track)) (condemned : List Nat) :
      (entries.map ρ.entry).foldl (CopperTidy.condemnShort Scan.mk c) (condemned.map ρ.number) =
        (entries.foldl (CopperTidy.condemnShort Scan.mk b) condemned).map ρ.number := by
    induction entries generalizing condemned with
    | nil => rfl
    | cons entry rest ih =>
      rw [List.map_cons, List.foldl_cons, h.condemnShort, ih]
      rfl
  rw [CopperTidy.shorts, h.tracks]
  exact run b.tracks []

theorem Follows.removeShorts (h : ρ.Follows r s) :
    ρ.Agrees r.removeShorts s.removeShorts := by
  have condemned : CopperTidy.shorts s.rebuild.contacts s.rebuild.board =
      (CopperTidy.shorts r.rebuild.contacts r.rebuild.board).map ρ.number := h.board.shorts
  unfold Run.removeShorts
  simp only [condemned, List.isEmpty_map]
  exact ⟨h.removals .misConnected _, rfl⟩

theorem Follows.shortPass (h : ρ.Follows r s) : ρ.Agrees r.shortPass s.shortPass := by
  obtain ⟨run, told⟩ := h.removeShorts
  unfold Run.shortPass
  generalize r.removeShorts = first at run told
  generalize s.removeShorts = second at run told
  obtain ⟨first, changed⟩ := first
  obtain ⟨second, changed'⟩ := second
  cases told
  cases changed with
  | true => exact run.idle true
  | false => exact run.idle false

/-! ## Dangling tracks -/

theorem Mirrors.deadEnd {b c : Board} (h : ρ.Mirrors b c) (id v : Nat) (via : Track) :
    CopperTidy.deadEnd Scan.mk c (ρ.number id) (ρ.number v) (ρ.track v via) =
      CopperTidy.deadEnd Scan.mk b id v via := by
  have items : ContactSource.itemsAt Scan.mk c (ρ.number v) (ρ.track v via) via.start
      { sameNet := true, exclude := [ρ.number id] } =
      (ContactSource.itemsAt Scan.mk b v via via.start { sameNet := true, exclude := [id] }).map
        ρ.number := h.itemsAt v via via.start { sameNet := true, exclude := [id] }
  have start : (ρ.track v via).start = via.start := rfl
  rw [CopperTidy.deadEnd, h.onPad, start, items, List.isEmpty_map, h.zoneUnder?]
  rfl

theorem Mirrors.endDangles {b c : Board} (h : ρ.Mirrors b c) (id : Nat) (side : Side) :
    CopperTidy.endDangles Scan.mk c (ρ.number id) side = CopperTidy.endDangles Scan.mk b id side := by
  have attached : ContactSource.connectedAt Scan.mk c (ρ.number id) side { sameNet := true } =
      (ContactSource.connectedAt Scan.mk b id side { sameNet := true }).map ρ.number :=
    h.connectedAt id side { sameNet := true }
  unfold CopperTidy.endDangles ContactSource.firstConnectedAt?
  cases there : b.track? id with
  | none => rw [h.track?_none there]
  | some t =>
    rw [h.track?_some there]
    simp only [attached, List.head?_map, h.zoneUnder?]
    cases (ContactSource.connectedAt Scan.mk b id side { sameNet := true }).head? with
    | none => rfl
    | some v =>
      simp only [Option.map_some]
      cases thereV : b.track? v with
      | none => rw [h.track?_none thereV]
      | some via =>
        rw [h.track?_some thereV]
        simp only [h.deadEnd]
        rfl

theorem Mirrors.dangles {b c : Board} (h : ρ.Mirrors b c) (id : Nat) :
    CopperTidy.dangles Scan.mk c (ρ.number id) = CopperTidy.dangles Scan.mk b id := by
  simp only [CopperTidy.dangles, h.onPad, h.endDangles]

theorem Follows.danglingRounds (limit : Nat) (h : ρ.Follows r s) :
    ρ.Agrees (Run.danglingRounds limit r) (Run.danglingRounds limit s) := by
  induction limit generalizing r s with
  | zero => exact h.idle false
  | succ limit ih =>
    have condemned : s.board.ids.filter (CopperTidy.dangles Scan.mk s.board) =
        (r.board.ids.filter (CopperTidy.dangles Scan.mk r.board)).map ρ.number := by
      rw [h.board.ids, List.filter_map]
      exact congrArg _ (List.filter_congr fun id _ => h.board.dangles id)
    rw [danglingRounds_scan, danglingRounds_scan]
    simp only [condemned, List.isEmpty_map]
    split
    · exact h.idle false
    · exact (ih (h.removals .dangling _)).run.idle true

theorem Follows.danglingPass (o : Options) (h : ρ.Follows r s) :
    ρ.Agrees (r.danglingPass o) (s.danglingPass o) := by
  have rounds : ρ.Agrees r.refresh.deleteDangling s.refresh.deleteDangling := by
    have same : s.board.trackCount = r.board.trackCount := h.board.trackCount
    show ρ.Agrees (Run.danglingRounds r.board.trackCount r) (Run.danglingRounds s.board.trackCount s)
    rw [same]
    exact h.danglingRounds _
  rw [danglingPass_eq, danglingPass_eq]
  simp only [rounds.told]
  split
  · exact rounds.run.cleanSegments.run.idle true
  · exact rounds

/-! ## A whole cleaning -/

theorem Follows.when (on : Bool) {pass : Run Scan σ → Run Scan σ × Bool}
    {pass' : Run Scan τ → Run Scan τ × Bool} (h : ρ.Follows r s)
    (agree : ρ.Agrees (pass r) (pass' s)) : ρ.Agrees (Run.when on pass r) (Run.when on pass' s) := by
  cases on with
  | true => exact agree
  | false => exact h.idle false

theorem Follows.segmentPass (o : Options) (h : ρ.Follows r s) :
    ρ.Agrees (r.segmentPass o) (s.segmentPass o) := by
  unfold Run.segmentPass
  split
  · exact h.cleanSegments
  split
  · exact h.deleteNullSegments
  · exact h.idle false

theorem Follows.cleanup (o : Options) (h : ρ.Follows r s) :
    ρ.Agrees (r.cleanup o) (s.cleanup o) := by
  by_cases on : o.anyEnabled = true
  · have mended := h.normalizeVias
    have vias := mended.run.when o.cleanVias mended.run.cleanVias
    have segments := vias.run.segmentPass o
    have shorts := segments.run.when o.removeMisconnected segments.run.shortPass
    have dangling := shorts.run.when o.deleteDangling (shorts.run.danglingPass o)
    rw [cleanup_eq on, cleanup_eq on]
    exact ⟨dangling.run, congrArg₂ or (congrArg₂ or (congrArg₂ or (congrArg₂ or mended.told vias.told)
      segments.told) shorts.told) dangling.told⟩
  · unfold Run.cleanup
    rw [if_neg on, if_neg on]
    exact h.idle false

end CopperTidy.Renaming
