import CopperTidy.Proofs.Drops
import CopperTidy.Proofs.Settled

/-! # Which side of a short goes

Tracks are looked at in sequence order, and a neighbour counts only if it is not condemned itself. A
neighbour on another net that comes earlier was looked at before, and was condemned then, because
the track that is looked at now was not. So the marks only say which neighbours come later:
`shorts_eq`. A track goes if it is on a pad of another net or meets a later track of another net. A
snapshot that keeps the verdicts as marks comes to the same tracks: `removeShorts_marked`.
-/

namespace CopperTidy
set_option autoImplicit false

namespace Board

/-- A plated pad of another net is at an end of the track, on one of its layers. -/
def OnForeignPad (b : Board) (t : Track) : Prop :=
  ∃ pad ∈ b.pads, pad.net ≠ t.net ∧ pad.kind ≠ .nonPlated ∧ t.hasEndAt pad.position = true ∧
    pad.layers.intersects t.layers = true

/-- A track of another net that comes later has an end and a layer in common with the track. -/
def MeetsForeignLater (b : Board) (id : Nat) (t : Track) : Prop :=
  ∃ other u, id < other ∧ b.track? other = some u ∧ u.net ≠ t.net ∧
    ∃ p, t.hasEndAt p = true ∧ u.hasEndAt p = true ∧ t.sharesLayer u = true

/-- The track connects two nets, and no earlier track is blamed for it instead. -/
def Shorting (b : Board) (id : Nat) (t : Track) : Prop :=
  b.OnForeignPad t ∨ b.MeetsForeignLater id t

variable {b : Board} {id : Nat} {t : Track}

theorem touchesForeignPad_iff (there : b.track? id = some t) :
    touchesForeignPad (Contacts.build b) b id t = true ↔ b.OnForeignPad t := by
  unfold touchesForeignPad
  rw [Contacts.padsOf_build, List.any_eq_true]
  simp only [ContactSource.padsOf, there, Option.map_some, Option.getD_some, mem_padsUnderEnds]
  constructor
  · rintro ⟨n, ⟨pad, listed, meets⟩, foreign⟩
    rw [listed, Option.any_some, bne_iff_ne] at foreign
    obtain ⟨p, ends, hits⟩ := Pad.meets_iff.mp meets
    simp only [Pad.hits, Bool.and_eq_true, bne_iff_ne, beq_iff_eq] at hits
    obtain ⟨⟨plated, rfl⟩, layer⟩ := hits
    exact ⟨pad, List.mem_of_getElem? listed, foreign, plated, ends, layer⟩
  · rintro ⟨pad, mem, foreign, plated, ends, layer⟩
    obtain ⟨n, listed⟩ := List.mem_iff_getElem?.mp mem
    have listed : b.pad? n = some pad := listed
    refine ⟨n, ⟨pad, listed, Pad.meets_iff.mpr ⟨pad.position, ends, ?_⟩⟩, ?_⟩
    · simp [Pad.hits, plated, layer]
    · rw [listed, Option.any_some, bne_iff_ne]
      exact foreign

/-- The question about one track, when all earlier ones have been judged. -/
theorem touchesForeignTrack_iff {condemned : List Nat} (there : b.track? id = some t)
    (judged : ∀ n u, n < id → b.track? n = some u → (n ∈ condemned ↔ b.Shorting n u))
    (earlier : ∀ n ∈ condemned, n < id) :
    touchesForeignTrack (Contacts.build b) b condemned id t = true ↔
      b.MeetsForeignLater id t := by
  unfold touchesForeignTrack
  rw [Contacts.tracksOf_build, List.any_eq_true]
  simp only [ContactSource.tracksOf, there, Option.map_some, Option.getD_some, tracksTouching,
    mem_ids_filter, Bool.and_eq_true, bne_iff_ne, Bool.not_eq_true', List.contains_eq_mem,
    decide_eq_false_iff_not]
  constructor
  · rintro ⟨other, ⟨u, live, ne, touches⟩, foreign, spared⟩
    rw [live, Option.any_some, bne_iff_ne] at foreign
    obtain ⟨p, endT, endU, layer⟩ := Track.touches_iff.mp touches
    rcases Nat.lt_or_gt_of_ne ne with before | after
    -- An earlier neighbour would have been condemned for meeting this track.
    · refine absurd ((judged other u before live).mpr (.inr ?_)) spared
      exact ⟨id, t, before, there, foreign.symm, p, endU, endT,
        (Track.sharesLayer_comm u t).trans layer⟩
    · exact ⟨other, u, after, live, foreign, p, endT, endU, layer⟩
  · rintro ⟨other, u, after, live, foreign, p, endT, endU, layer⟩
    refine ⟨other, ⟨u, live, Nat.ne_of_gt after, Track.touches_iff.mpr ⟨p, endT, endU, layer⟩⟩, ?_,
      fun mem => Nat.lt_asymm after (earlier other mem)⟩
    rw [live, Option.any_some, bne_iff_ne]
    exact foreign

/-! ## The scan -/

open scoped Classical in
/-- Those entries of a list that are shorts. -/
noncomputable def shortsAmong (b : Board) (entries : List (Nat × Track)) : List (Nat × Track) :=
  entries.filter fun entry => b.Shorting entry.1 entry.2

theorem mem_shortsAmong {entries : List (Nat × Track)} {entry : Nat × Track} :
    entry ∈ b.shortsAmong entries ↔ entry ∈ entries ∧ b.Shorting entry.1 entry.2 := by
  simp [shortsAmong]

/-- The verdict on one more track, when those before it have been judged. -/
theorem condemnShort_eq {before after : List (Nat × Track)}
    (split : b.tracks = before ++ (id, t) :: after) :
    condemnShort (Contacts.build b) b ((b.shortsAmong before).map (·.1)) (id, t) =
      (b.shortsAmong (before ++ [(id, t)])).map (·.1) := by
  have there : b.track? id = some t := mem_tracks.mp (by rw [split]; simp)
  have judged (n : Nat) :
      n ∈ (b.shortsAmong before).map (·.1) ↔
        ∃ u, (n < id ∧ b.track? n = some u) ∧ b.Shorting n u := by
    simp [mem_shortsAmong, mem_before split]
  have meets : touchesForeignTrack (Contacts.build b) b ((b.shortsAmong before).map (·.1)) id t =
      true ↔ b.MeetsForeignLater id t :=
    touchesForeignTrack_iff there (fun n u lt live => by simp [judged, lt, live])
      fun n mem => ((judged n).mp mem).elim fun _ h => h.1.1
  have verdict : (touchesForeignPad (Contacts.build b) b id t ||
      touchesForeignTrack (Contacts.build b) b ((b.shortsAmong before).map (·.1)) id t) = true ↔
        b.Shorting id t := by
    rw [Bool.or_eq_true, touchesForeignPad_iff there, meets]
    exact Iff.rfl
  have one_more : b.shortsAmong (before ++ [(id, t)]) =
      b.shortsAmong before ++ b.shortsAmong [(id, t)] := List.filter_append _ _
  unfold condemnShort
  rw [one_more, List.map_append]
  by_cases goes : b.Shorting id t
  · rw [if_pos (verdict.mpr goes)]
    simp [shortsAmong, goes]
  · rw [if_neg fun h => goes (verdict.mp h)]
    simp [shortsAmong, goes]

/-- The shorts are condemned in sequence order, whatever marks the scan left on its way. -/
theorem shorts_eq (b : Board) :
    shorts (Contacts.build b) b = (b.shortsAmong b.tracks).map (·.1) := by
  have scan (after before : List (Nat × Track)) (split : b.tracks = before ++ after) :
      after.foldl (condemnShort (Contacts.build b) b) ((b.shortsAmong before).map (·.1)) =
        (b.shortsAmong b.tracks).map (·.1) := by
    induction after generalizing before with
    | nil => rw [split, List.append_nil, List.foldl_nil]
    | cons entry rest ih =>
      rw [List.foldl_cons, condemnShort_eq split]
      exact ih (before ++ [entry]) (by rw [split, List.append_assoc, List.singleton_append])
  exact scan b.tracks [] rfl

theorem mem_shorts :
    (id, t) ∈ b.shortsAmong b.tracks ↔ b.track? id = some t ∧ b.Shorting id t := by
  rw [mem_shortsAmong, mem_tracks]

theorem mem_ids_shorts (there : b.track? id = some t) :
    id ∈ (b.shortsAmong b.tracks).map (·.1) ↔ b.Shorting id t := by
  constructor
  · intro listed
    obtain ⟨⟨_, u⟩, short, rfl⟩ := List.mem_map.mp listed
    obtain ⟨there', goes⟩ := mem_shorts.mp short
    cases there.symm.trans there'
    exact goes
  · exact fun goes => List.mem_map_of_mem (f := (·.1)) (mem_shorts.mpr ⟨there, goes⟩)

theorem shorts_ascending (b : Board) :
    ((b.shortsAmong b.tracks).map (·.1)).Pairwise (· < ·) := b.ids_filter_ascending _

end Board

/-! ## The marks -/

namespace Contacts

variable {b : Board} {c marked : Contacts} {condemned : List Nat}

/-- The same snapshot, with marks on just the condemned tracks. -/
def Marks (marked c : Contacts) (condemned : List Nat) : Prop :=
  marked.rows = c.rows ∧ ∀ id, marked.isMarked id = condemned.contains id

theorem marks_clearMarks (c : Contacts) : c.clearMarks.Marks c [] :=
  ⟨c.rows_clearMarks, c.isMarked_clearMarks⟩

theorem Marks.row?_eq (h : marked.Marks c condemned) (id : Nat) : marked.row? id = c.row? id := by
  rw [row?, h.1, row?]

/-- A marked snapshot gives the verdict that the list of condemned tracks gives. -/
theorem Marks.verdict (h : marked.Marks c condemned) (id : Nat) (t : Track) :
    touchesForeignPad marked b id t = touchesForeignPad c b id t ∧
      touchesForeignTrack marked b marked.marks id t = touchesForeignTrack c b condemned id t := by
  have marks : ∀ other, marked.marks.contains other = condemned.contains other := h.2
  simp only [touchesForeignPad, touchesForeignTrack, ContactSource.padsOf, ContactSource.tracksOf,
    h.row?_eq, marks, and_self]

theorem Marks.markShort (h : marked.Marks c condemned) {entry : Nat × Track}
    (known : (c.row? entry.1).isSome = true) :
    (markShort b marked entry).Marks c (condemnShort c b condemned entry) := by
  obtain ⟨pad, track⟩ := h.verdict (b := b) entry.1 entry.2
  rw [Contacts.markShort, condemnShort, pad, track]
  split
  · refine ⟨(marked.rows_setMarked entry.1 true).trans h.1, fun id => ?_⟩
    rw [isMarked_setMarked, h.row?_eq, known, h.2, Bool.eq_iff_iff]
    by_cases same : id = entry.1 <;> simp [same]
  · exact h

theorem marks_markShorts (known : ∀ entry ∈ b.tracks, (c.row? entry.1).isSome = true) :
    (c.markShorts b).Marks c (shorts c b) := by
  have scan (entries : List (Nat × Track)) (sub : ∀ entry ∈ entries, entry ∈ b.tracks) :
      ∀ marked condemned, Marks marked c condemned →
        (entries.foldl (Contacts.markShort b) marked).Marks c
          (entries.foldl (condemnShort c b) condemned) := by
    induction entries with
    | nil => exact fun _ _ h => h
    | cons entry rest ih =>
      intro marked condemned h
      rw [List.foldl_cons, List.foldl_cons]
      exact ih (fun later mem => sub later (List.mem_cons_of_mem _ mem)) _ _
        (h.markShort (known entry (sub entry List.mem_cons_self)))
  exact scan b.tracks (fun _ mem => mem) _ _ (marks_clearMarks c)

/-- The tracks that the snapshot has marked after the scan are the condemned ones, in order. -/
theorem marked_markShorts (b : Board) :
    ((build b).markShorts b).marked = shorts (build b) b := by
  have known : ∀ entry ∈ b.tracks, ((build b).row? entry.1).isSome = true := by
    intro entry mem
    rw [row?_build, Board.mem_tracks.mp mem]
    rfl
  obtain ⟨rows, marks⟩ := marks_markShorts known
  have ids : (build b).rows.map (·.1) = b.tracks.map (·.1) := by simp [build]
  have same : b.tracks.filter (fun entry => ((build b).markShorts b).isMarked entry.1) =
      b.shortsAmong b.tracks := by
    rw [Board.shortsAmong]
    refine List.filter_congr fun entry mem => ?_
    rw [marks, Board.shorts_eq, List.contains_eq_mem]
    exact decide_eq_decide.mpr (Board.mem_ids_shorts (Board.mem_tracks.mp mem))
  rw [marked, rows, ids, List.filter_map, Board.shorts_eq, ← same]
  rfl

end Contacts

namespace Run

variable {σ : Type}

/-- The pass over shorts takes the tracks that a new snapshot has marked. -/
theorem removeShorts_marked (r : Run Contacts σ) :
    let marked := (r.rebuild.contacts.markShorts r.board).marked
    r.removeShorts = (marked.foldl (removeTrack .misConnected) r.rebuild, !marked.isEmpty) := by
  intro marked
  have condemned : marked = shorts (Contacts.build r.board) r.board :=
    Contacts.marked_markShorts r.board
  rw [condemned]
  rfl

theorem removeShorts_eq (r : Run Contacts σ) :
    let gone := r.board.shortsAmong r.board.tracks
    r.removeShorts =
      ((gone.map (·.1)).foldl (removeTrack .misConnected) r.rebuild, !gone.isEmpty) := by
  intro gone
  rw [← List.isEmpty_map (f := fun entry : Nat × Track => entry.1), ← r.board.shorts_eq]
  rfl

theorem drops_removeShorts (r : Run Contacts σ) :
    r.rebuild.Drops ((r.board.shortsAmong r.board.tracks).map fun entry =>
      .removed entry.1 entry.2 .misConnected) r.removeShorts.1 := by
  rw [removeShorts_eq]
  exact drops_removals (fun entry mem => (Board.mem_shorts.mp mem).1)
    (r.board.shorts_ascending.imp fun lt => Nat.ne_of_lt lt)

/-- The pass over shorts takes away just the tracks that are on a plated pad of another net or meet
a later track of another net, on the board as it was when the pass began. It answers whether there
were any, logs them in sequence order, and finds nothing when it is run again. -/
theorem removeShorts_exact (r : Run Contacts σ) :
    let b := r.board
    let s := r.removeShorts.1
    (∀ id t, s.board.track? id = some t ↔ b.track? id = some t ∧ ¬ b.Shorting id t) ∧
      s.board.pads = b.pads ∧ s.board.zones = b.zones ∧
      (r.removeShorts.2 = true ↔ ∃ id t, b.track? id = some t ∧ b.Shorting id t) ∧
      (∃ gone : List (Nat × Track), (gone.map (·.1)).Pairwise (· < ·) ∧
        (∀ id t, (id, t) ∈ gone ↔ b.track? id = some t ∧ b.Shorting id t) ∧
        s.log = r.log ++ gone.map fun entry => .removed entry.1 entry.2 .misConnected) ∧
      s.removeShorts = (s.rebuild, false) := by
  intro b s
  have drops := drops_removeShorts r
  have gone (id : Nat) : id ∈ ((b.shortsAmong b.tracks).map fun entry =>
      Change.removed entry.1 entry.2 .misConnected).map Change.id ↔
        ∃ t, b.track? id = some t ∧ b.Shorting id t := by
    simp [Board.mem_shorts, Change.id]
  refine ⟨drops.track?_iff gone, drops.pads, drops.zones, ?_,
    ⟨b.shortsAmong b.tracks, b.shorts_ascending, fun id t => Board.mem_shorts, drops.log⟩,
    removeShorts_idle (removeShorts_noShort r)⟩
  rw [removeShorts_eq, Bool.not_eq_true', List.isEmpty_eq_false_iff_exists_mem]
  constructor
  · rintro ⟨⟨id, t⟩, mem⟩
    exact ⟨id, t, Board.mem_shorts.mp mem⟩
  · rintro ⟨id, t, short⟩
    exact ⟨(id, t), Board.mem_shorts.mpr short⟩

end Run
end CopperTidy
