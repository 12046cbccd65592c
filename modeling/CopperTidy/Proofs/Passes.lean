import CopperTidy.Proofs.Origin

/-! # Every pass makes moves

A pass, started with a snapshot of its board, makes moves and nothing else. Each pass needs only its
own switch, so a lemma about a pass also serves a run in which other passes are off.
-/

namespace CopperTidy.Run
set_option autoImplicit false

variable {σ : Type} {o : Options} {r s : Run Contacts σ}

/-! ## Vias -/

theorem Goes.keeps {s : Run Contacts σ} {P : Board → Prop} (h : Goes o r s)
    (stable : Board.Stable P) (holds : P r.board) : P s.board := by
  obtain ⟨_, _, moves⟩ := h.moves
  exact stable.moves moves holds

theorem modifyTrack_board (edit : Track → Track) (r : Run Contacts σ) (id : Nat) :
    (r.modifyTrack edit id).board = r.board.modify id edit := by
  unfold modifyTrack Board.modify
  cases r.board.track? id <;> rfl

theorem modifyTrack_contacts (edit : Track → Track) (r : Run Contacts σ) (id : Nat) :
    (r.modifyTrack edit id).contacts = r.contacts := by
  unfold modifyTrack
  cases r.board.track? id <;> rfl

theorem modifyTrack_log {id : Nat} {t : Track} (there : r.board.track? id = some t)
    (edit : Track → Track) :
    (r.modifyTrack edit id).log = r.log ++ [.modified id t (edit t)] := by
  simp [modifyTrack, there]

theorem normalizeVia_board (r : Run Contacts σ) (id : Nat) :
    (r.normalizeVia id).board = r.board.modify id fun t => { t with stop := t.start } :=
  modifyTrack_board _ r id

theorem goes_normalizeVia (h : r.Coherent) {id : Nat} {t : Track}
    (there : r.board.track? id = some t) (bad : isMalformedVia t = true) :
    Goes o r (r.normalizeVia id) := by
  refine .later _ h (modifyTrack_contacts _ r id) ?_ (modifyTrack_log there _) ?_
  · rw [normalizeVia_board]
    exact .step .refl (.modify _ id _)
  · rw [normalizeVia_board]
    exact .mend there bad

/-- Ids listed once: a via that is still to come has not been mended yet. -/
theorem goes_normalizeVia_foldl {ids : List Nat} (once : ids.Nodup)
    (h : r.Coherent)
    (bad : ∀ id ∈ ids, ∃ t, r.board.track? id = some t ∧ isMalformedVia t = true) :
    Goes o r (ids.foldl normalizeVia r) := by
  induction ids generalizing r with
  | nil => exact .refl h
  | cons id rest ih =>
    obtain ⟨fresh, once⟩ := List.nodup_cons.mp once
    obtain ⟨t, there, malformed⟩ := bad id List.mem_cons_self
    have first : Goes o r (r.normalizeVia id) := goes_normalizeVia h there malformed
    refine first.trans (ih once first.coherent fun other mem => ?_)
    obtain ⟨u, live, malformed⟩ := bad other (List.mem_cons_of_mem id mem)
    have ne : other ≠ id := fun e => fresh (e ▸ mem)
    refine ⟨u, ?_, malformed⟩
    rw [normalizeVia_board, Board.track?_modify, if_neg ne]
    exact live

theorem goes_normalizeVias (h : r.Coherent) :
    Goes o r r.normalizeVias.1 :=
  goes_normalizeVia_foldl (Board.ids_filter_nodup r.board _) h fun _ mem => Board.mem_ids_filter.mp mem

theorem track?_normalizeVia_foldl (r : Run Contacts σ) (ids : List Nat) (id : Nat) :
    (ids.foldl normalizeVia r).board.track? id =
      if id ∈ ids then (r.board.track? id).map fun t => { t with stop := t.start }
      else r.board.track? id := by
  induction ids generalizing r with
  | nil => simp
  | cons first rest ih =>
    rw [List.foldl_cons, ih, normalizeVia_board, Board.track?_modify]
    by_cases e : id = first
    · subst e
      cases r.board.track? id <;> simp
    · simp [e]

theorem normalizeVias_straight (r : Run Contacts σ) : r.normalizeVias.1.board.StraightVias := by
  intro id t live
  rw [show r.normalizeVias.1.board = (List.foldl normalizeVia r _).board from rfl,
    track?_normalizeVia_foldl] at live
  split at live
  · obtain ⟨t', _, rfl⟩ := Option.map_eq_some_iff.mp live
    simp [isMalformedVia]
  · next kept =>
    rw [Bool.eq_false_iff]
    exact fun bad => kept (Board.mem_ids_filter.mpr ⟨t, live, bad⟩)

theorem mem_stackedOn {b : Board} {id other : Nat} {via : Track} :
    other ∈ stackedOn b id via ↔
      id < other ∧ ∃ t, b.track? other = some t ∧ via.duplicateVias t = true := by
  rw [stackedOn, List.mem_map]
  constructor
  · rintro ⟨⟨other, t⟩, mem, rfl⟩
    obtain ⟨mem, same⟩ := List.mem_filter.mp mem
    obtain ⟨later, there⟩ := Board.mem_tracksAfter.mp mem
    exact ⟨later, t, there, same⟩
  · rintro ⟨later, t, there, same⟩
    refine ⟨(other, t), List.mem_filter.mpr ⟨?_, same⟩, rfl⟩
    exact Board.mem_tracksAfter.mpr ⟨later, there⟩

theorem not_mem_stackedOn (b : Board) (id : Nat) (via : Track) : id ∉ stackedOn b id via := by
  intro mem
  have := (mem_stackedOn.mp mem).1
  omega

/-- Only tracks are gone, and the snapshot is the same. -/
structure Fading (r s : Run Contacts σ) : Prop where
  contacts : s.contacts = r.contacts
  board : Board.Fades (fun _ => True) r.board s.board

theorem Fading.refl (r : Run Contacts σ) : Fading r r := ⟨rfl, .refl _⟩

theorem Fading.of_fades {gone : Nat → Prop} (same : s.contacts = r.contacts)
    (fades : Board.Fades gone r.board s.board) : Fading r s := by
  refine ⟨same, fun id => ?_, fades.pads, fades.zones⟩
  exact (fades.tracks id).imp_right fun dead => ⟨dead.1, trivial⟩

theorem Fading.trans {q : Run Contacts σ} (first : Fading r s) (second : Fading s q) :
    Fading r q :=
  ⟨second.contacts.trans first.contacts, first.board.trans second.board⟩

theorem fading_removeTrack (r : Run Contacts σ) (reason : Reason) (id : Nat) :
    Fading r (r.removeTrack reason id) := by
  refine ⟨removeTrack_contacts r reason id, ?_⟩
  rw [removeTrack_board]
  exact (Board.Fades.refl r.board).remove trivial

theorem fading_foldl {step : Run Contacts σ → Nat → Run Contacts σ}
    (each : ∀ r id, Fading r (step r id)) (r : Run Contacts σ) (ids : List Nat) :
    Fading r (ids.foldl step r) := by
  induction ids generalizing r with
  | nil => exact .refl r
  | cons id rest ih => exact (each r id).trans (ih (step r id))

theorem coherent_removals (h : r.Coherent) (reason : Reason) (ids : List Nat) :
    (ids.foldl (removeTrack reason) r).Coherent := by
  induction ids generalizing r with
  | nil => exact h
  | cons id rest ih =>
    refine ih (h.step (removeTrack_contacts r reason id) ?_)
    rw [removeTrack_board]
    exact .remove r.board id

/-- The snapshot was taken of a board of which only tracks are gone. -/
def Faded (r : Run Contacts σ) : Prop :=
  ∃ b, r.contacts = Contacts.build b ∧ Board.Fades (fun _ => True) b r.board

theorem Fresh.faded (h : r.Fresh) : r.Faded := ⟨r.board, h, .refl _⟩

theorem Faded.fading (h : r.Faded) (fading : Fading r s) : s.Faded := by
  obtain ⟨b, built, before⟩ := h
  exact ⟨b, fading.contacts.trans built, before.trans fading.board⟩

/-- Pads of a snapshot are those of the board: pads stay, and a live track is as it was. -/
theorem Faded.padsOf (h : r.Faded) {id : Nat} {t : Track} (there : r.board.track? id = some t) :
    ContactSource.padsOf r.contacts r.board id = r.board.padsUnderEnds t := by
  obtain ⟨b, built, fades⟩ := h
  have padsWhere (condition : Pad → Bool) : b.padsWhere condition = r.board.padsWhere condition := by
    rw [Board.padsWhere, Board.padsWhere, fades.pads]
  rw [built]
  show (((Contacts.build b).row? id).map (·.pads)).getD [] = _
  rw [Contacts.row?_build, fades.was there]
  simp only [Option.map_some, Option.getD_some, Touching.of, Board.padsUnderEnds, Board.padsUnder,
    Board.padsAt, padsWhere]

/-- A track is on a pad through all layers just if such a pad meets it. -/
theorem Faded.onThroughPad (h : r.Faded) {id : Nat} {t : Track}
    (there : r.board.track? id = some t) :
    r.onThroughPad id = true ↔
      ∃ pad ∈ r.board.pads, pad.onAllCopper = true ∧ pad.meets t = true := by
  rw [Run.onThroughPad, h.padsOf there, List.any_eq_true]
  constructor
  · rintro ⟨id, mem, copper⟩
    obtain ⟨pad, listed, meets⟩ := Board.mem_padsUnderEnds.mp mem
    rw [listed] at copper
    exact ⟨pad, List.mem_of_getElem? listed, copper, meets⟩
  · rintro ⟨pad, mem, copper, meets⟩
    obtain ⟨id, listed⟩ := List.mem_iff_getElem?.mp mem
    refine ⟨id, Board.mem_padsUnderEnds.mpr ⟨pad, listed, meets⟩, ?_⟩
    rw [show r.board.pad? id = some pad from listed]
    exact copper

theorem goes_stacked (on : o.cleanVias = true) (h : r.Coherent) {id : Nat} {via : Track}
    (there : r.board.track? id = some via) :
    let stacked := stackedOn r.board id via
    Goes o r (stacked.foldl (removeTrack .duplicateVia) r) ∧
      Board.Fades (· ∈ stacked) r.board (stacked.foldl (removeTrack .duplicateVia) r).board ∧
      (stacked.foldl (removeTrack .duplicateVia) r).contacts = r.contacts := by
  refine goes_removals _ h (fun _ _ coherent why => goes_removeTrack coherent why)
    (fun q => removeTrack_board q _) (fun q => removeTrack_contacts q _) ?_
  intro c other t mem fades live
  obtain ⟨later, u, there', same⟩ := mem_stackedOn.mp mem
  rw [live] at there'
  cases there'
  exact .stacked on (fades.stays there (not_mem_stackedOn _ _ _)) later same

theorem fading_cleanVia (r : Run Contacts σ) (id : Nat) : Fading r (r.cleanVia id).1 := by
  unfold cleanVia
  cases r.board.track? id with
  | none => exact .refl r
  | some via =>
    have stacked := fading_foldl (fun q => fading_removeTrack q .duplicateVia) r
      (stackedOn r.board id via)
    simp only
    split
    · split
      · exact stacked.trans (fading_removeTrack _ _ id)
      · exact stacked
    · exact .refl r

theorem goes_cleanVia (on : o.cleanVias = true) (h : r.Coherent) (faded : r.Faded) (id : Nat) :
    Goes o r (r.cleanVia id).1 := by
  unfold cleanVia
  cases there : r.board.track? id with
  | none => exact .refl h
  | some via =>
    simp only
    by_cases through : via.isThroughVia = true
    · rw [if_pos through]
      obtain ⟨goes, fades, contacts⟩ := goes_stacked on h there
      have live := fades.stays there (not_mem_stackedOn _ _ _)
      split
      · next onPad =>
        have faded' := faded.fading (.of_fades contacts fades)
        obtain ⟨pad, mem, copper, meets⟩ := (faded'.onThroughPad live).mp onPad
        refine goes.trans (goes_removeTrack goes.coherent fun t live' => ?_)
        rw [live] at live'
        cases live'
        exact .onPad on through mem copper meets
      · exact goes
    · rw [if_neg through]
      exact .refl h

theorem goes_cleanVias (on : o.cleanVias = true) (h : r.Coherent) : Goes o r r.cleanVias.1 := by
  have fresh := h.refresh_fresh
  refine (Goes.refresh h).trans (goes_forEach (P := Faded) _ ?_ fresh.coherent fresh.faded).1
  intro q id _ coherent faded
  exact ⟨goes_cleanVia on coherent faded id, faded.fading (fading_cleanVia q id)⟩

/-! ## Null segments and copies -/

theorem goes_deleteNullSegments (on : o.mergeSegments = true ∨ o.removeMisconnected = true)
    (h : r.Coherent) : Goes o r r.deleteNullSegments.1 := by
  unfold deleteNullSegments
  refine (goes_removals _ h (fun _ _ coherent why => goes_removeTrack coherent why)
    (fun q => removeTrack_board q _) (fun q => removeTrack_contacts q _) ?_).1
  intro c id t mem _ live
  obtain ⟨u, there, null⟩ := Board.mem_ids_filter.mp mem
  rw [live] at there
  cases there
  exact .null on null

theorem of_mem_copiesOf {b : Board} {id other : Nat} {t : Track}
    (h : other ∈ copiesOf b id t) :
    id < other ∧ ∃ u, b.track? other = some u ∧ t.net = u.net ∧ t.duplicates u = true := by
  obtain ⟨⟨other, u⟩, mem, rfl⟩ := List.mem_map.mp h
  obtain ⟨mem, same⟩ := List.mem_filter.mp mem
  have net : u.net = t.net := by simpa using List.all_eq_true.mp List.all_takeWhile _ mem
  obtain ⟨later, there⟩ := Board.mem_tracksAfter.mp ((List.takeWhile_sublist _).subset mem)
  exact ⟨later, u, there, net.symm, same⟩

theorem goes_removeCopies (on : o.mergeSegments = true) (h : r.Coherent) (id : Nat) :
    Goes o r (r.removeCopies id).1 := by
  unfold removeCopies
  cases there : r.board.track? id with
  | none => exact .refl h
  | some t =>
    refine (goes_removals _ h (fun _ _ coherent why => goes_absorbTrack coherent why)
      (fun q => absorbTrack_board q _ id) (fun q => absorbTrack_contacts q _ id) ?_).1
    intro c other u mem fades live
    obtain ⟨later, u', there', net, same⟩ := of_mem_copiesOf mem
    have self : id ∉ copiesOf r.board id t := fun mem => by
      have := (of_mem_copiesOf mem).1
      omega
    rw [live] at there'
    cases there'
    exact .copy on (fades.stays there self) later net same

/-! ## Merging -/

theorem Fresh.itemsAt (h : r.Fresh) (id : Nat) (t : Track) (p : Point) (n : Neighbors) :
    ContactSource.itemsAt r.contacts r.board id t p n =
      ContactSource.itemsAt Scan.mk r.board id t p n := by
  rw [show r.contacts = Contacts.build r.board from h]
  exact Contacts.itemsAt_build r.board id t p n

theorem Fresh.connectedAt (h : r.Fresh) (id : Nat) (side : Side) (n : Neighbors) :
    ContactSource.connectedAt r.contacts r.board id side n =
      ContactSource.connectedAt Scan.mk r.board id side n := by
  unfold ContactSource.connectedAt
  cases r.board.track? id with
  | none => rfl
  | some t => exact h.itemsAt id t _ n

theorem Fresh.onPad (h : r.Fresh) (id : Nat) (side : Side) :
    ContactSource.onPad r.contacts r.board id side =
      ContactSource.onPad Scan.mk r.board id side := by
  rw [show r.contacts = Contacts.build r.board from h]
  exact Contacts.onPad_build r.board id side

/-- A merge is two changes, of which the first leaves the other track as it is. -/
theorem goes_stretch (on : o.mergeSegments = true) (h : r.Coherent) {id other : Nat}
    {t u : Track} {side : Side} (meet : r.board.Junction id side other t u)
    (ends : t.sameEnds u = false) (line : t.collinear u = true)
    (free : r.board.padsUnder t side = []) :
    Goes o r ((r.modifyTrack (fun v => v.setPoint (farEnd u (t.point side)) side) id).absorbTrack
      .mergedCollinear id other) := by
  have board := modifyTrack_board (fun v => v.setPoint (farEnd u (t.point side)) side) r id
  have logged := modifyTrack_log meet.there fun v => v.setPoint (farEnd u (t.point side)) side
  have contacts := modifyTrack_contacts (fun v => v.setPoint (farEnd u (t.point side)) side) r id
  generalize r.modifyTrack (fun v => v.setPoint (farEnd u (t.point side)) side) id = q at *
  have live : q.board.track? other = some u := by
    rw [board, Board.track?_modify, if_neg meet.ne]
    exact meet.thereOther
  have goes : Goes o r (q.removeTrack .mergedCollinear other) := by
    refine .later [.modified id t (t.setPoint (farEnd u (t.point side)) side),
      .removed other u .mergedCollinear] h ((removeTrack_contacts q _ other).trans contacts) ?_
      ((removeTrack_log live .mergedCollinear).trans ?_) ?_
    · rw [removeTrack_board, board]
      exact .step (.step .refl (.modify _ id _)) (.remove _ other)
    · rw [logged, List.append_assoc]
      rfl
    · rw [removeTrack_board, board]
      exact .merge on meet ends line free
  obtain ⟨seen, eq⟩ := absorbTrack_eq q .mergedCollinear id other
  rw [eq]
  exact goes.seen seen

/-- A pair that does not fit is left alone; else the other trace goes, or the first one stretches
over it. -/
theorem Fresh.mergePair_cases (h : r.Fresh) {id other : Nat} {side : Side}
    (only : r.board.attached id side = [other]) :
    (r.mergePair id other side = (r, false) ∧ ∀ t u, r.board.Junction id side other t u →
        ¬ (t.sameEnds u = true ∨ t.collinear u = true ∧ r.board.padsUnder t side = [])) ∨
      ∃ t u, r.board.Junction id side other t u ∧
        (t.sameEnds u = true ∧
            r.mergePair id other side = (r.absorbTrack .mergedCollinear id other, true) ∨
          t.sameEnds u = false ∧ t.collinear u = true ∧ r.board.padsUnder t side = [] ∧
            r.mergePair id other side =
              ((r.modifyTrack (fun v => v.setPoint (farEnd u (t.point side)) side) id).absorbTrack
                .mergedCollinear id other, true)) := by
  obtain ⟨t, u, there, thereOther, _⟩ := Board.mem_attached.mp (only ▸ List.mem_singleton_self other)
  have same {t' u' : Track} (meet : r.board.Junction id side other t' u') : t' = t ∧ u' = u :=
    ⟨Option.some.inj (meet.there.symm.trans there),
      Option.some.inj (meet.thereOther.symm.trans thereOther)⟩
  have offPad : ContactSource.onPad r.contacts r.board id side = false ↔
      r.board.padsUnder t side = [] := by
    rw [h.onPad]
    simp [ContactSource.onPad, there]
  unfold mergePair
  rw [there, thereOther]
  simp only
  by_cases kinds : t.mergeable u = true
  · have meet : r.board.Junction id side other t u := ⟨there, thereOther, only, kinds⟩
    rw [kinds, Bool.not_true, if_neg Bool.false_ne_true]
    by_cases ends : t.sameEnds u = true
    · rw [if_pos ends]
      exact .inr ⟨t, u, meet, .inl ⟨ends, rfl⟩⟩
    · rw [if_neg ends]
      by_cases fits : t.collinear u = true ∧ r.board.padsUnder t side = []
      · rw [fits.1, offPad.mpr fits.2]
        exact .inr ⟨t, u, meet, .inr ⟨Bool.eq_false_iff.mpr ends, fits.1, fits.2, rfl⟩⟩
      · left
        refine ⟨if_pos ?_, fun t' u' meet' => ?_⟩
        · rw [Bool.or_eq_true, Bool.not_eq_true']
          rw [← offPad] at fits
          cases line : t.collinear u with
          | false => exact .inl rfl
          | true => exact .inr ((Bool.not_eq_false _).mp fun off => fits ⟨line, off⟩)
        · obtain ⟨rfl, rfl⟩ := same meet'
          exact fun either => either.elim ends fits
  · left
    refine ⟨if_pos (by simpa using kinds), fun t' u' meet' => ?_⟩
    obtain ⟨rfl, rfl⟩ := same meet'
    exact absurd meet'.kinds kinds

theorem goes_mergePair (on : o.mergeSegments = true) (h : r.Fresh) {id other : Nat} {side : Side}
    (only : r.board.attached id side = [other]) : Goes o r (r.mergePair id other side).1 := by
  rcases h.mergePair_cases only with
    ⟨idle, _⟩ | ⟨t, u, meet, ⟨same, gone⟩ | ⟨ends, line, free, stretched⟩⟩
  · rw [idle]
    exact .refl h.coherent
  · rw [gone]
    refine goes_absorbTrack h.coherent fun u' live => ?_
    cases meet.thereOther.symm.trans live
    exact .overlapped on meet same
  · rw [stretched]
    exact goes_stretch on h.coherent meet ends line free

theorem goes_mergeAt (on : o.mergeSegments = true) (h : r.Coherent) (id : Nat) (side : Side) :
    Goes o r (r.mergeAt id side).1 := by
  have fresh := h.refresh_fresh
  refine (Goes.refresh h).trans ?_
  unfold mergeAt
  simp only
  split
  · next other only => exact goes_mergePair on fresh ((fresh.connectedAt id side _).symm.trans only)
  · exact .refl fresh.coherent

theorem goes_mergeOnce (on : o.mergeSegments = true) (h : r.Coherent) (id : Nat) :
    Goes o r (r.mergeOnce id).1 := by
  have first := goes_mergeAt on h id .start
  unfold mergeOnce
  split
  · next s merged =>
    rw [merged] at first
    exact first
  · next s kept =>
    rw [kept] at first
    exact first.trans (goes_mergeAt on first.coherent id .stop)

theorem goes_mergeUpTo (on : o.mergeSegments = true) (limit : Nat) (h : r.Coherent) (id : Nat) :
    Goes o r (mergeUpTo limit r id).1 := by
  induction limit generalizing r with
  | zero => exact .refl h
  | succ limit ih =>
    have first := goes_mergeOnce on h id
    unfold mergeUpTo
    split
    · split
      · next s merged =>
        rw [merged] at first
        exact first.trans (ih first.coherent)
      · next s kept =>
        rw [kept] at first
        exact first
    · exact .refl h

/-! The steps of the segment pass, one after the other. -/

def withoutCopies (r : Run Contacts σ) : Run Contacts σ := (forEach removeCopies r r.board.ids).1

def merged (r : Run Contacts σ) : Run Contacts σ := (forEach mergeAll r r.board.ids).1

theorem cleanSegments_fst (r : Run Contacts σ) :
    r.cleanSegments.1 = r.deleteNullSegments.1.withoutCopies.merged := by
  unfold cleanSegments withoutCopies merged
  obtain ⟨s, null⟩ := r.deleteNullSegments
  rfl

theorem goes_withoutCopies (on : o.mergeSegments = true) (h : r.Coherent) :
    Goes o r r.withoutCopies :=
  (goes_forEach (P := fun _ => True) r.board.ids
    (fun _ id _ coherent _ => ⟨goes_removeCopies on coherent id, trivial⟩) h trivial).1

theorem goes_merged (on : o.mergeSegments = true) (h : r.Coherent) : Goes o r r.merged :=
  (goes_forEach (P := fun _ => True) r.board.ids
    (fun q id _ coherent _ => ⟨goes_mergeUpTo on q.board.trackCount coherent id, trivial⟩)
    h trivial).1

theorem goes_copies_merges (on : o.mergeSegments = true) (h : r.Coherent) :
    Goes o r r.withoutCopies.merged :=
  (goes_withoutCopies on h).trans (goes_merged on (goes_withoutCopies on h).coherent)

theorem goes_cleanSegments (on : o.mergeSegments = true) (h : r.Coherent) :
    Goes o r r.cleanSegments.1 := by
  have null : Goes o r r.deleteNullSegments.1 := goes_deleteNullSegments (.inl on) h
  rw [cleanSegments_fst]
  exact null.trans (goes_copies_merges on null.coherent)

/-! ## Shorts and dangling tracks -/

theorem goes_removeShorts (on : o.removeMisconnected = true) (r : Run Contacts σ) :
    Goes o r r.removeShorts.1 := by
  refine (Goes.rebuild r).trans (goes_removals _ (rebuild_fresh r).coherent
    (fun _ _ coherent why => goes_removeTrack coherent why)
    (fun q => removeTrack_board q _) (fun q => removeTrack_contacts q _) ?_).1
  intro c id t _ _ _
  exact .short on

theorem Fresh.dangles_eq (h : r.Fresh) (id : Nat) :
    dangles r.contacts r.board id = dangles Scan.mk r.board id := by
  have dead (other : Nat) (via : Track) :
      deadEnd r.contacts r.board id other via = deadEnd Scan.mk r.board id other via := by
    unfold deadEnd
    rw [h.onPad, h.itemsAt]
  have ends (side : Side) :
      endDangles r.contacts r.board id side = endDangles Scan.mk r.board id side := by
    unfold endDangles ContactSource.firstConnectedAt?
    rw [h.connectedAt]
    simp only [dead]
  unfold dangles
  rw [h.onPad, h.onPad, ends, ends]

/-- The tracks that go in one round. -/
theorem Fresh.mem_dangling (h : r.Fresh) {id : Nat} :
    id ∈ r.board.ids.filter (dangles r.contacts r.board) ↔
      dangles Scan.mk r.board id = true := by
  rw [List.mem_filter, h.dangles_eq, Board.mem_ids]
  constructor
  · exact And.right
  · intro dangling
    refine ⟨?_, dangling⟩
    cases there : r.board.track? id with
    | some t => rfl
    | none => simp [dangles, endDangles, there] at dangling

theorem Fresh.goes_round (on : o.deleteDangling = true) (straight : r.board.StraightVias)
    (h : r.Fresh) :
    let condemned := r.board.ids.filter (dangles r.contacts r.board)
    Goes o r (condemned.foldl (removeTrack .dangling) r) ∧
      Board.Fades (· ∈ condemned) r.board (condemned.foldl (removeTrack .dangling) r).board ∧
      (condemned.foldl (removeTrack .dangling) r).contacts = r.contacts := by
  refine goes_removals _ h.coherent (fun _ _ coherent why => goes_removeTrack coherent why)
    (fun q => removeTrack_board q _) (fun q => removeTrack_contacts q _) ?_
  intro c id t mem fades _
  refine .loose on straight ⟨fun id => ?_, fades.pads, fades.zones⟩ (h.mem_dangling.mp mem)
  rcases fades.tracks id with same | ⟨dead, gone⟩
  · exact .inl same
  · exact .inr ⟨dead, h.mem_dangling.mp gone⟩

theorem goes_danglingRounds (on : o.deleteDangling = true) (limit : Nat) (h : r.Coherent)
    (straight : r.board.StraightVias) : Goes o r (danglingRounds limit r).1 := by
  induction limit generalizing r with
  | zero => exact .refl h
  | succ limit ih =>
    have fresh := h.refresh_fresh
    have straight' : r.refresh.board.StraightVias := r.refresh_board ▸ straight
    refine (Goes.refresh h).trans ?_
    unfold danglingRounds
    simp only
    split
    · exact .refl fresh.coherent
    · have round := (fresh.goes_round on straight').1
      exact round.trans (ih round.coherent (round.keeps Board.stable_straightVias straight'))

/-! ## A whole cleaning -/

theorem goes_when {pass : Run Contacts σ → Run Contacts σ × Bool} {on : Bool} (h : r.Coherent)
    (goes : on = true → Goes o r (pass r).1) : Goes o r (when on pass r).1 := by
  unfold when
  cases on with
  | true => exact goes rfl
  | false => exact .refl h

theorem goes_segmentPass {p : Options} (h : r.Coherent)
    (merges : o.mergeSegments = true → p.mergeSegments = true)
    (misconnected : o.removeMisconnected = true → p.removeMisconnected = true) :
    Goes p r (segmentPass o r).1 := by
  unfold segmentPass
  split
  · next on => exact goes_cleanSegments (merges on) h
  · split
    · next on => exact goes_deleteNullSegments (.inr (misconnected on)) h
    · exact .refl h

theorem goes_shortPass (on : o.removeMisconnected = true) (r : Run Contacts σ) :
    Goes o r (shortPass r).1 := by
  have goes := goes_removeShorts on r
  unfold shortPass
  cases h : r.removeShorts with
  | mk s changed =>
    rw [h] at goes
    cases changed with
    | true => exact goes.trans (.rebuild s)
    | false => exact goes

theorem danglingPass_eq {ι : Type} [ContactSource ι] (o : Options) (r : Run ι σ) :
    let rounds := r.refresh.deleteDangling
    danglingPass o r =
      if rounds.2 && o.mergeSegments then (rounds.1.cleanSegments.1, true) else rounds := rfl

theorem goes_danglingPass {p : Options} (on : p.deleteDangling = true)
    (merges : o.mergeSegments = true → p.mergeSegments = true) (h : r.Coherent)
    (straight : r.board.StraightVias) : Goes p r (danglingPass o r).1 := by
  have goes : Goes p r r.refresh.deleteDangling.1 :=
    (Goes.refresh h).trans (goes_danglingRounds on _ h.refresh_fresh.coherent
      (r.refresh_board ▸ straight))
  unfold danglingPass
  cases h : r.refresh.deleteDangling with
  | mk s changed =>
    rw [h] at goes
    simp only
    split
    · next again =>
      have again := (Bool.and_eq_true_iff.mp again).2
      dsimp only
      exact goes.trans (goes_cleanSegments (merges again) goes.coherent)
    · exact goes

/-! The runs after each pass of a cleaning, in their order. -/

def afterEnds (r : Run Contacts σ) : Run Contacts σ := r.normalizeVias.1.rebuild

def afterVias (o : Options) (r : Run Contacts σ) : Run Contacts σ :=
  (when o.cleanVias cleanVias (afterEnds r)).1

def afterSegments (o : Options) (r : Run Contacts σ) : Run Contacts σ :=
  (segmentPass o (afterVias o r)).1

def afterShorts (o : Options) (r : Run Contacts σ) : Run Contacts σ :=
  (when o.removeMisconnected shortPass (afterSegments o r)).1

def afterDangling (o : Options) (r : Run Contacts σ) : Run Contacts σ :=
  (when o.deleteDangling (danglingPass o) (afterShorts o r)).1

theorem cleanup_eq {ι : Type} [ContactSource ι] {o : Options} (on : o.anyEnabled = true)
    (r : Run ι σ) :
    let ends := r.normalizeVias
    let vias := when o.cleanVias cleanVias ends.1.rebuild
    let segments := segmentPass o vias.1
    let shorts := when o.removeMisconnected shortPass segments.1
    let dangling := when o.deleteDangling (danglingPass o) shorts.1
    cleanup o r =
      (dangling.1, ends.2 || vias.2 || segments.2 || shorts.2 || dangling.2) := by
  unfold cleanup
  rw [if_pos on]

theorem cleanup_fst (on : o.anyEnabled = true) (r : Run Contacts σ) :
    (cleanup o r).1 = afterDangling o r := by
  rw [cleanup_eq on]
  rfl

/-! Each stage needs its own switch only; `p` may have others off. -/

theorem coherent_afterEnds (r : Run Contacts σ) : (afterEnds r).Coherent :=
  (rebuild_fresh _).coherent

theorem goes_afterEnds (h : r.Coherent) : Goes o r (afterEnds r) :=
  (goes_normalizeVias h).trans (.rebuild _)

theorem goes_afterVias {p : Options} (r : Run Contacts σ)
    (vias : o.cleanVias = true → p.cleanVias = true) :
    Goes p (afterEnds r) (afterVias o r) :=
  goes_when (coherent_afterEnds r) fun on => goes_cleanVias (vias on) (coherent_afterEnds r)

theorem coherent_afterVias (o : Options) (r : Run Contacts σ) : (afterVias o r).Coherent :=
  (goes_afterVias (p := o) r id).coherent

theorem goes_afterSegments {p : Options} (r : Run Contacts σ)
    (merges : o.mergeSegments = true → p.mergeSegments = true)
    (misconnected : o.removeMisconnected = true → p.removeMisconnected = true) :
    Goes p (afterVias o r) (afterSegments o r) :=
  goes_segmentPass (coherent_afterVias o r) merges misconnected

theorem coherent_afterSegments (o : Options) (r : Run Contacts σ) :
    (afterSegments o r).Coherent :=
  (goes_afterSegments (p := o) r id id).coherent

theorem goes_afterShorts {p : Options} (r : Run Contacts σ)
    (misconnected : o.removeMisconnected = true → p.removeMisconnected = true) :
    Goes p (afterSegments o r) (afterShorts o r) :=
  goes_when (coherent_afterSegments o r) fun on => goes_shortPass (misconnected on) _

theorem coherent_afterShorts (o : Options) (r : Run Contacts σ) : (afterShorts o r).Coherent :=
  (goes_afterShorts (p := o) r id).coherent

theorem straight_afterShorts (o : Options) (r : Run Contacts σ) :
    (afterShorts o r).board.StraightVias := by
  have straight : (afterEnds r).board.StraightVias := normalizeVias_straight r
  have vias : Goes o (afterEnds r) (afterVias o r) := goes_afterVias r id
  have shorts : Goes o (afterVias o r) (afterShorts o r) :=
    (goes_afterSegments r id id).trans (goes_afterShorts r id)
  exact (vias.trans shorts).keeps Board.stable_straightVias straight

theorem goes_afterDangling {p : Options} (r : Run Contacts σ)
    (merges : o.mergeSegments = true → p.mergeSegments = true)
    (loose : o.deleteDangling = true → p.deleteDangling = true) :
    Goes p (afterShorts o r) (afterDangling o r) :=
  goes_when (coherent_afterShorts o r) fun on =>
    goes_danglingPass (loose on) merges (coherent_afterShorts o r) (straight_afterShorts o r)

/-- Once the vias are mended, a cleaning is the passes in their order. -/
theorem goes_cleanup_mended (on : o.anyEnabled = true) (r : Run Contacts σ) :
    Goes o (afterEnds r) (cleanup o r).1 := by
  have vias : Goes o (afterEnds r) (afterVias o r) := goes_afterVias r id
  have shorts : Goes o (afterVias o r) (afterShorts o r) :=
    (goes_afterSegments r id id).trans (goes_afterShorts r id)
  rw [cleanup_fst on]
  exact (vias.trans shorts).trans (goes_afterDangling r id id)

theorem goes_cleanup (h : r.Coherent) : Goes o r (cleanup o r).1 := by
  by_cases on : o.anyEnabled = true
  · exact (goes_afterEnds h).trans (goes_cleanup_mended on r)
  · unfold cleanup
    rw [if_neg on]
    exact .refl h

end CopperTidy.Run

namespace CopperTidy.Board

theorem clean_eq (b : Board) (o : Options) :
    let s : Run Contacts Unit × Bool := Run.cleanup o (Run.start b Observer.silent ())
    b.clean o = ⟨s.2, s.1.board, s.1.log, s.1.stats⟩ := by
  unfold clean cleanWith
  generalize Run.cleanup o (Run.start b Observer.silent () : Run Contacts Unit) = s
  obtain ⟨r, modified⟩ := s
  rfl

theorem clean_board (b : Board) (o : Options) :
    (b.clean o).board =
      (Run.cleanup o (Run.start b Observer.silent () : Run Contacts Unit)).1.board := by
  rw [clean_eq]

theorem clean_modified (b : Board) (o : Options) :
    (b.clean o).modified =
      (Run.cleanup o (Run.start b Observer.silent () : Run Contacts Unit)).2 := by
  rw [clean_eq]

theorem clean_changes (b : Board) (o : Options) :
    (b.clean o).changes =
      (Run.cleanup o (Run.start b Observer.silent () : Run Contacts Unit)).1.log := by
  rw [clean_eq]

/-- A cleaning takes its board to the cleaned one by moves, and tells them all. -/
theorem clean_moves (b : Board) (o : Options) :
    Moves o b (b.clean o).changes (b.clean o).board := by
  have goes : Run.Goes o _ _ := Run.goes_cleanup (Run.start_fresh b Observer.silent ()).coherent
  obtain ⟨cs, logged, moves⟩ := goes.moves
  rw [clean_changes, clean_board, logged]
  exact moves

end CopperTidy.Board
