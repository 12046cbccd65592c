import CopperTidy.Board.Islands
import CopperTidy.Cleanup.Basic
import CopperTidy.Proofs.Snapshot

/-! # The moves of a run

Everything a run does to its board is one of three moves: a via is mended, a track leaves, or two
segments become one. `Board.Leaves` says when a track may leave, by the passes that are switched on
and in terms of the board at that moment. Every pass makes moves and logs what they change, so what
all moves keep is kept by a run.
-/

namespace CopperTidy
set_option autoImplicit false

namespace Board

/-! ## Vocabulary -/

/-- Live tracks of the same net at an end of a track. -/
def attached (b : Board) (id : Nat) (side : Side) : List Nat :=
  ContactSource.connectedAt Scan.mk b id side { sameNet := true }

/-- Exactly one track of the net is at an end of `id`, and both are traces of one width. -/
structure Junction (b : Board) (id : Nat) (side : Side) (other : Nat) (t u : Track) : Prop where
  there : b.track? id = some t
  thereOther : b.track? other = some u
  only : b.attached id side = [other]
  kinds : t.mergeable u = true

def StraightVias (b : Board) : Prop :=
  ∀ id t, b.track? id = some t → Run.isMalformedVia t = false

/-- Nothing changed but that some tracks are gone. -/
structure Fades (gone : Nat → Prop) (b c : Board) : Prop where
  tracks : ∀ id, c.track? id = b.track? id ∨ c.track? id = none ∧ gone id
  pads : c.pads = b.pads
  zones : c.zones = b.zones

/-- When a track may leave the board. -/
inductive Leaves (o : Options) (b : Board) (id : Nat) (t : Track) : Reason → Prop
  | null (on : o.mergeSegments = true ∨ o.removeMisconnected = true) (null : t.isNull = true) :
      Leaves o b id t .nullSegment
  | stacked {first : Nat} {s : Track} (on : o.cleanVias = true) (there : b.track? first = some s)
      (earlier : first < id) (same : s.duplicateVias t = true) : Leaves o b id t .duplicateVia
  | onPad {pad : Pad} (on : o.cleanVias = true) (through : t.isThroughVia = true)
      (there : pad ∈ b.pads) (copper : pad.onAllCopper = true) (meets : pad.meets t = true) :
      Leaves o b id t .viaOnThroughPad
  | copy {first : Nat} {s : Track} (on : o.mergeSegments = true) (there : b.track? first = some s)
      (earlier : first < id) (net : s.net = t.net) (same : s.duplicates t = true) :
      Leaves o b id t .duplicateTrack
  | overlapped {first : Nat} {side : Side} {s : Track} (on : o.mergeSegments = true)
      (meet : b.Junction first side id s t) (same : s.sameEnds t = true) :
      Leaves o b id t .mergedCollinear
  | short (on : o.removeMisconnected = true) : Leaves o b id t .misConnected
  /-- All tracks that dangle leave together, so some that did when the round began may be gone. By
  then all vias have been mended. -/
  | loose {past : Board} (on : o.deleteDangling = true) (straight : past.StraightVias)
      (since : Fades (fun gone => dangles Scan.mk past gone = true) past b)
      (dangling : dangles Scan.mk past id = true) : Leaves o b id t .dangling

/-- One thing that a run does to its board, with the changes that it logs. -/
inductive Move (o : Options) (b : Board) : List Change → Board → Prop
  | mend {id : Nat} {t : Track} (there : b.track? id = some t)
      (bad : Run.isMalformedVia t = true) :
      Move o b [.modified id t { t with stop := t.start }]
        (b.modify id fun t => { t with stop := t.start })
  | leave {id : Nat} {t : Track} {reason : Reason} (there : b.track? id = some t)
      (why : Leaves o b id t reason) : Move o b [.removed id t reason] (b.remove id)
  /-- Nothing but `other` is at the end of `id` that moves, and no pad. -/
  | merge {id other : Nat} {t u : Track} {side : Side} (on : o.mergeSegments = true)
      (meet : b.Junction id side other t u) (ends : t.sameEnds u = false)
      (line : t.collinear u = true) (free : b.padsUnder t side = []) :
      Move o b
        [.modified id t (t.setPoint (Run.farEnd u (t.point side)) side),
          .removed other u .mergedCollinear]
        ((b.modify id fun v => v.setPoint (Run.farEnd u (t.point side)) side).remove other)

inductive Moves (o : Options) (b : Board) : List Change → Board → Prop
  | nil : Moves o b [] b
  | snoc {cs ds : List Change} {c d : Board} (before : Moves o b cs c) (last : Move o c ds d) :
      Moves o b (cs ++ ds) d

theorem Moves.trans {o : Options} {b c d : Board} {cs ds : List Change} (first : Moves o b cs c)
    (second : Moves o c ds d) : Moves o b (cs ++ ds) d := by
  induction second with
  | nil =>
    rw [List.append_nil]
    exact first
  | snoc _ last ih =>
    rw [← List.append_assoc]
    exact .snoc ih last

theorem Moves.single {o : Options} {b c : Board} {cs : List Change} (h : Move o b cs c) :
    Moves o b cs c := .snoc .nil h

/-! ## Fading -/

theorem Fades.refl {gone : Nat → Prop} (b : Board) : Fades gone b b :=
  ⟨fun _ => .inl rfl, rfl, rfl⟩

theorem Fades.trans {gone : Nat → Prop} {b c d : Board} (first : Fades gone b c)
    (second : Fades gone c d) : Fades gone b d := by
  refine ⟨fun id => ?_, second.pads.trans first.pads, second.zones.trans first.zones⟩
  rcases second.tracks id with same | dead
  · rw [same]
    exact first.tracks id
  · exact .inr dead

theorem remove_pads (b : Board) (id : Nat) : (b.remove id).pads = b.pads := by
  unfold remove
  split <;> rfl

theorem remove_zones (b : Board) (id : Nat) : (b.remove id).zones = b.zones := by
  unfold remove
  split <;> rfl

theorem modify_pads (b : Board) (id : Nat) (edit : Track → Track) :
    (b.modify id edit).pads = b.pads := by
  unfold modify
  split <;> rfl

theorem modify_zones (b : Board) (id : Nat) (edit : Track → Track) :
    (b.modify id edit).zones = b.zones := by
  unfold modify
  split <;> rfl

theorem Fades.remove {gone : Nat → Prop} {b c : Board} (h : Fades gone b c) {id : Nat}
    (goes : gone id) : Fades gone b (c.remove id) := by
  refine ⟨fun other => ?_, (remove_pads c id).trans h.pads, (remove_zones c id).trans h.zones⟩
  rw [track?_remove]
  by_cases e : other = id
  · subst e
    exact .inr ⟨if_pos rfl, goes⟩
  · rw [if_neg e]
    exact h.tracks other

theorem Fades.was {gone : Nat → Prop} {b c : Board} (h : Fades gone b c) {id : Nat} {t : Track}
    (live : c.track? id = some t) : b.track? id = some t := by
  rcases h.tracks id with same | ⟨dead, _⟩
  · rw [← same, live]
  · rw [dead] at live
    cases live

theorem Fades.stays {gone : Nat → Prop} {b c : Board} (h : Fades gone b c) {id : Nat} {t : Track}
    (live : b.track? id = some t) (kept : ¬ gone id) : c.track? id = some t := by
  rcases h.tracks id with same | ⟨_, went⟩
  · rw [same, live]
  · exact absurd went kept

theorem Move.pads_zones {o : Options} {b c : Board} {cs : List Change} (h : Move o b cs c) :
    c.pads = b.pads ∧ c.zones = b.zones := by
  cases h with
  | mend => exact ⟨modify_pads b _ _, modify_zones b _ _⟩
  | leave => exact ⟨remove_pads b _, remove_zones b _⟩
  | merge =>
    exact ⟨(remove_pads _ _).trans (modify_pads b _ _),
      (remove_zones _ _).trans (modify_zones b _ _)⟩

theorem Moves.pads_zones {o : Options} {b c : Board} {cs : List Change} (h : Moves o b cs c) :
    c.pads = b.pads ∧ c.zones = b.zones := by
  induction h with
  | nil => exact ⟨rfl, rfl⟩
  | snoc _ last ih =>
    obtain ⟨pads, zones⟩ := last.pads_zones
    exact ⟨pads.trans ih.1, zones.trans ih.2⟩

/-! ## Pads under a track -/

theorem mem_padsWhere {b : Board} {condition : Pad → Bool} {id : Nat} :
    id ∈ b.padsWhere condition ↔ ∃ pad, b.pad? id = some pad ∧ condition pad = true := by
  rw [padsWhere, List.mem_map]
  constructor
  · rintro ⟨⟨pad, n⟩, mem, rfl⟩
    obtain ⟨mem, holds⟩ := List.mem_filter.mp mem
    exact ⟨pad, List.mem_zipIdx_iff_getElem?.mp mem, holds⟩
  · rintro ⟨pad, there, holds⟩
    refine ⟨(pad, id), List.mem_filter.mpr ⟨?_, holds⟩, rfl⟩
    exact List.mem_zipIdx_iff_getElem?.mpr there

theorem mem_padsUnderEnds {b : Board} {t : Track} {id : Nat} :
    id ∈ b.padsUnderEnds t ↔ ∃ pad, b.pad? id = some pad ∧ pad.meets t = true := by
  have under (side : Side) : id ∈ b.padsUnder t side ↔
      ∃ pad, b.pad? id = some pad ∧ pad.hits (t.point side) t.layers = true := by
    rw [padsUnder, padsAt, mem_padsWhere]
  have split : id ∈ b.padsUnderEnds t ↔ id ∈ b.padsUnder t .start ∨ id ∈ b.padsUnder t .stop := by
    simp only [padsUnderEnds, List.mem_append, List.mem_filter]
    by_cases h : id ∈ b.padsUnder t .start <;> simp [h]
  rw [split, under, under]
  simp only [Pad.meets, Bool.or_eq_true, Track.point]
  constructor
  · rintro (⟨pad, there, hits⟩ | ⟨pad, there, hits⟩)
    · exact ⟨pad, there, .inl hits⟩
    · exact ⟨pad, there, .inr hits⟩
  · rintro ⟨pad, there, hits | hits⟩
    · exact .inl ⟨pad, there, hits⟩
    · exact .inr ⟨pad, there, hits⟩

theorem mem_tracksAfter {b : Board} {first id : Nat} {t : Track} :
    (id, t) ∈ b.tracksAfter first ↔ first < id ∧ b.track? id = some t := by
  rw [tracksAfter, mem_numbered, track?_eq_some_iff, List.getElem?_drop]
  constructor
  · rintro ⟨le, h⟩
    refine ⟨le, ?_⟩
    rw [← h]
    congr 1
    omega
  · rintro ⟨lt, h⟩
    refine ⟨lt, ?_⟩
    rw [← h]
    congr 1
    omega

theorem later_filter_ascending (b : Board) (first : Nat) (condition : Nat × Track → Bool) :
    (((b.tracksAfter first).filter condition).map (·.1)).Pairwise (· < ·) :=
  (numbered_ascending _ _).sublist (List.filter_sublist.map _)

theorem ids_filter_ascending (b : Board) (condition : Nat × Track → Bool) :
    ((b.tracks.filter condition).map (·.1)).Pairwise (· < ·) :=
  b.ids_ascending.sublist (List.filter_sublist.map _)

theorem ids_filter_nodup (b : Board) (condition : Nat × Track → Bool) :
    ((b.tracks.filter condition).map (·.1)).Nodup :=
  (b.ids_filter_ascending condition).imp Nat.ne_of_lt

theorem mem_ids_filter {b : Board} {condition : Nat × Track → Bool} {id : Nat} :
    id ∈ (b.tracks.filter condition).map (·.1) ↔
      ∃ t, b.track? id = some t ∧ condition (id, t) = true := by
  rw [List.mem_map]
  constructor
  · rintro ⟨⟨id, t⟩, mem, rfl⟩
    obtain ⟨mem, holds⟩ := List.mem_filter.mp mem
    exact ⟨t, mem_tracks.mp mem, holds⟩
  · rintro ⟨t, there, holds⟩
    exact ⟨(id, t), List.mem_filter.mpr ⟨mem_tracks.mpr there, holds⟩, rfl⟩

/-! ## Tracks at a junction -/

theorem mem_attached {b : Board} {id other : Nat} {side : Side} :
    other ∈ b.attached id side ↔
      ∃ t u, b.track? id = some t ∧ b.track? other = some u ∧ other ≠ id ∧
        u.hasEndAt (t.point side) = true ∧ u.sharesLayer t = true ∧ u.net = t.net := by
  unfold attached ContactSource.connectedAt
  cases there : b.track? id with
  | none => simp
  | some t =>
    show other ∈ (b.tracks.filter _).map _ ↔ _
    rw [mem_ids_filter]
    constructor
    · rintro ⟨u, live, holds⟩
      simp only [Neighbors.wants, List.contains_nil, Bool.and_eq_true, Bool.not_true,
        Bool.false_or, bne_iff_ne, beq_iff_eq] at holds
      exact ⟨t, u, rfl, live, holds.2.1.1.1, holds.1, holds.2.1.2, holds.2.2⟩
    · rintro ⟨t', u, eq, live, ne, ends, layer, net⟩
      cases eq
      refine ⟨u, live, ?_⟩
      simp [Neighbors.wants, ne, ends, layer, net]

namespace Junction

variable {b : Board} {id other : Nat} {side : Side} {t u : Track}

theorem facts (h : b.Junction id side other t u) :
    other ≠ id ∧ u.hasEndAt (t.point side) = true ∧ u.sharesLayer t = true ∧ u.net = t.net := by
  obtain ⟨t', u', there, thereOther, facts⟩ :=
    mem_attached.mp (h.only ▸ List.mem_singleton_self other)
  rw [h.there] at there
  rw [h.thereOther] at thereOther
  cases there
  cases thereOther
  exact facts

theorem ne (h : b.Junction id side other t u) : other ≠ id := h.facts.1

theorem endsThere (h : b.Junction id side other t u) : u.hasEndAt (t.point side) = true :=
  h.facts.2.1

theorem net (h : b.Junction id side other t u) : u.net = t.net := h.facts.2.2.2

theorem isTrace (h : b.Junction id side other t u) : t.isTrace = true ∧ u.isTrace = true := by
  have kinds := h.kinds
  simp only [Track.mergeable, Bool.and_eq_true] at kinds
  exact kinds.1

end Junction

end Board

/-! ## Runs that make moves -/

namespace Run

variable {σ : Type} {o : Options} {r s : Run Contacts σ}

/-- The run has gone on from `r` to `s` by moves, and has logged them. -/
structure Goes (o : Options) (r s : Run Contacts σ) : Prop where
  coherent : s.Coherent
  moves : ∃ cs, s.log = r.log ++ cs ∧ Board.Moves o r.board cs s.board

theorem Goes.refl (h : r.Coherent) : Goes o r r :=
  ⟨h, [], (List.append_nil _).symm, .nil⟩

theorem Goes.trans {q : Run Contacts σ} (first : Goes o r s) (second : Goes o s q) :
    Goes o r q := by
  obtain ⟨cs, logged, moves⟩ := first.moves
  obtain ⟨ds, logged', moves'⟩ := second.moves
  refine ⟨second.coherent, cs ++ ds, ?_, moves.trans moves'⟩
  rw [logged', logged, List.append_assoc]

/-- Steps of the board, with the snapshot left as it is. -/
theorem Goes.later (cs : List Change) (h : r.Coherent) (same : s.contacts = r.contacts)
    (later : Board.Later r.board s.board) (logged : s.log = r.log ++ cs)
    (move : Board.Move o r.board cs s.board) : Goes o r s := by
  obtain ⟨b, built, before⟩ := h
  exact ⟨⟨b, same.trans built, before.trans later⟩, cs, logged, .single move⟩

theorem Goes.refresh (h : r.Coherent) : Goes o r r.refresh := by
  refine ⟨h.refresh_fresh.coherent, [], ?_, ?_⟩
  · rw [refresh_log, List.append_nil]
  · rw [refresh_board]
    exact .nil

theorem Goes.rebuild (r : Run Contacts σ) : Goes o r r.rebuild :=
  ⟨(rebuild_fresh r).coherent, [], (List.append_nil _).symm, .nil⟩

/-! ## Steps -/

theorem reattach_eq {ι : Type} (r : Run ι σ) (survivor : Nat) (removed : Track) :
    ∃ seen, r.reattach survivor removed = { r with seen := seen } := by
  unfold reattach
  cases r.board.track? survivor with
  | none => exact ⟨r.seen, rfl⟩
  | some s => exact ⟨r.observer.reattach s removed r.seen, rfl⟩

theorem removeTrack_board (r : Run Contacts σ) (reason : Reason) (id : Nat) :
    (r.removeTrack reason id).board = r.board.remove id := by
  unfold removeTrack Board.remove
  cases r.board.track? id <;> rfl

theorem removeTrack_contacts (r : Run Contacts σ) (reason : Reason) (id : Nat) :
    (r.removeTrack reason id).contacts = r.contacts := by
  unfold removeTrack
  cases r.board.track? id <;> rfl

theorem removeTrack_log {id : Nat} {t : Track} (there : r.board.track? id = some t)
    (reason : Reason) :
    (r.removeTrack reason id).log = r.log ++ [.removed id t reason] := by
  simp [removeTrack, there]

/-- An absorbed track is a removed one; only the observer hears more. -/
theorem absorbTrack_eq {ι : Type} (r : Run ι σ) (reason : Reason) (survivor id : Nat) :
    ∃ seen, r.absorbTrack reason survivor id =
      { r.removeTrack reason id with seen := seen } := by
  unfold absorbTrack
  cases h : r.board.track? id with
  | none => exact ⟨r.seen, by simp [removeTrack, h]⟩
  | some t => exact reattach_eq _ survivor t

theorem goes_removeTrack (h : r.Coherent) {reason : Reason} {id : Nat}
    (why : ∀ t, r.board.track? id = some t → Board.Leaves o r.board id t reason) :
    Goes o r (r.removeTrack reason id) := by
  cases there : r.board.track? id with
  | none =>
    have same : r.removeTrack reason id = r := by simp [removeTrack, there]
    rw [same]
    exact .refl h
  | some t =>
    refine .later _ h (removeTrack_contacts r reason id) ?_ (removeTrack_log there reason) ?_
    · rw [removeTrack_board]
      exact .step .refl (.remove _ id)
    · rw [removeTrack_board]
      exact .leave there (why t there)

theorem Goes.seen (h : Goes o r s) (seen : σ) : Goes o r { s with seen := seen } :=
  ⟨h.coherent, h.moves⟩

theorem goes_absorbTrack (h : r.Coherent) {reason : Reason} {survivor id : Nat}
    (why : ∀ t, r.board.track? id = some t → Board.Leaves o r.board id t reason) :
    Goes o r (r.absorbTrack reason survivor id) := by
  obtain ⟨seen, eq⟩ := absorbTrack_eq r reason survivor id
  rw [eq]
  exact (goes_removeTrack h why).seen seen

theorem absorbTrack_board (r : Run Contacts σ) (reason : Reason) (survivor id : Nat) :
    (r.absorbTrack reason survivor id).board = r.board.remove id := by
  obtain ⟨seen, eq⟩ := absorbTrack_eq r reason survivor id
  rw [eq]
  exact removeTrack_board r reason id

theorem absorbTrack_contacts (r : Run Contacts σ) (reason : Reason) (survivor id : Nat) :
    (r.absorbTrack reason survivor id).contacts = r.contacts := by
  obtain ⟨seen, eq⟩ := absorbTrack_eq r reason survivor id
  rw [eq]
  exact removeTrack_contacts r reason id

/-! ## Loops -/

/-- An invariant of a loop over ids in which every step makes moves. -/
theorem goes_foldl {step : Run Contacts σ → Nat → Run Contacts σ} {P : Run Contacts σ → Prop}
    {ids : List Nat}
    (each : ∀ r id, id ∈ ids → r.Coherent → P r → Goes o r (step r id) ∧ P (step r id))
    (h : r.Coherent) (p : P r) : Goes o r (ids.foldl step r) ∧ P (ids.foldl step r) := by
  induction ids generalizing r with
  | nil => exact ⟨.refl h, p⟩
  | cons id rest ih =>
    obtain ⟨first, p'⟩ := each r id List.mem_cons_self h p
    obtain ⟨others, p''⟩ :=
      ih (fun r' id' mem => each r' id' (List.mem_cons_of_mem id mem)) first.coherent p'
    exact ⟨first.trans others, p''⟩

theorem goes_forEach {step : Run Contacts σ → Nat → Run Contacts σ × Bool}
    {P : Run Contacts σ → Prop} (ids : List Nat)
    (each : ∀ r id, id ∈ ids → r.Coherent → P r → Goes o r (step r id).1 ∧ P (step r id).1)
    (h : r.Coherent) (p : P r) : Goes o r (forEach step r ids).1 ∧ P (forEach step r ids).1 := by
  induction ids generalizing r with
  | nil => exact ⟨.refl h, p⟩
  | cons id rest ih =>
    obtain ⟨first, p'⟩ := each r id List.mem_cons_self h p
    obtain ⟨others, p''⟩ :=
      ih (fun r' id' mem => each r' id' (List.mem_cons_of_mem id mem)) first.coherent p'
    exact ⟨first.trans others, p''⟩

/-- A loop that removes what may go as long as the tracks kept are as they were. -/
theorem goes_removals {reason : Reason} (ids : List Nat) (h : r.Coherent)
    {step : Run Contacts σ → Nat → Run Contacts σ}
    (each : ∀ r id, r.Coherent →
      (∀ t, r.board.track? id = some t → Board.Leaves o r.board id t reason) →
        Goes o r (step r id))
    (removes : ∀ r id, (step r id).board = r.board.remove id)
    (keeps : ∀ r id, (step r id).contacts = r.contacts)
    (why : ∀ c id t, id ∈ ids → Board.Fades (· ∈ ids) r.board c → r.board.track? id = some t →
      Board.Leaves o c id t reason) :
    Goes o r (ids.foldl step r) ∧ Board.Fades (· ∈ ids) r.board (ids.foldl step r).board ∧
      (ids.foldl step r).contacts = r.contacts := by
  refine goes_foldl (P := fun q => Board.Fades (· ∈ ids) r.board q.board ∧
    q.contacts = r.contacts) ?_ h ⟨.refl _, rfl⟩
  intro q id mem coherent ⟨fades, contacts⟩
  refine ⟨each q id coherent fun t live => why q.board id t mem fades (fades.was live), ?_, ?_⟩
  · rw [removes]
    exact fades.remove mem
  · exact (keeps q id).trans contacts

end Run
end CopperTidy
