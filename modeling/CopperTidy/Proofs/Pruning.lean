import CopperTidy.Proofs.Connection.Steps
import CopperTidy.Proofs.Reopened
import CopperTidy.Proofs.Scanning
import CopperTidy.Proofs.Tally
import Mathlib.Data.Finset.Basic
import Mathlib.Logic.Relation
import Mathlib.Order.Bounds.Defs

/-! # The greatest part without open ends

A track that dangles still does when others have gone. So tracks that dangle can go in any order: a
part of the board in which nothing dangles loses no track, and what is left when nothing dangles any
more is the greatest such part.
-/

namespace CopperTidy
set_option autoImplicit false
open Relation (ReflTransGen)

namespace Board

/-- An end of the track is open, to one who looks at the board as it is. -/
def Dangling (b : Board) (id : Nat) : Prop := dangles (Contacts.build b) b id = true

def Anchored (b : Board) : Prop := ∀ id, ¬ b.Dangling id

/-- One track that dangles is taken off the board. -/
def Prunes (b c : Board) : Prop := ∃ id, b.Dangling id ∧ c = b.remove id

def live (b : Board) : Finset Nat := b.ids.toFinset

/-- The board with only some of its tracks. -/
def only (b : Board) (kept : Finset Nat) : Board :=
  { b with slots := b.slots.mapIdx fun id slot => if id ∈ kept then slot else none }

/-- All that is on the second board is on the first one too, and only tracks are missing. -/
abbrev Contains (b c : Board) : Prop := Fades (fun _ => True) b c

variable {b c d : Board} {id : Nat} {t : Track}

theorem dangling_iff : b.Dangling id ↔ dangles Scan.mk b id = true := by
  rw [Dangling, dangles_build]

theorem mem_live : id ∈ b.live ↔ (b.track? id).isSome = true := by
  rw [live, List.mem_toFinset, mem_ids]

theorem track?_only (b : Board) (kept : Finset Nat) (id : Nat) :
    (b.only kept).track? id = if id ∈ kept then b.track? id else none := by
  simp only [track?, only, List.getElem?_mapIdx]
  cases b.slots[id]? with
  | none => simp
  | some slot => by_cases mem : id ∈ kept <;> simp [mem]

/-! ## Parts of a board -/

theorem contains_only (b : Board) (kept : Finset Nat) : b.Contains (b.only kept) := by
  refine ⟨fun id => ?_, rfl, rfl⟩
  rw [track?_only]
  by_cases mem : id ∈ kept
  · exact .inl (if_pos mem)
  · exact .inr ⟨if_neg mem, trivial⟩

theorem contains_remove (b : Board) (id : Nat) : b.Contains (b.remove id) :=
  (Fades.refl b).remove trivial

theorem Contains.straight (h : b.Contains c) (straight : b.StraightVias) : c.StraightVias :=
  fun id t live => straight id t (h.was live)

theorem Contains.copper (h : b.Contains c) (copper : b.CopperVias) : c.CopperVias :=
  fun id t span live => copper id t span (h.was live)

theorem Contains.live (h : b.Contains c) : c.live ⊆ b.live := by
  intro id mem
  obtain ⟨t, there⟩ := Option.isSome_iff_exists.mp (mem_live.mp mem)
  rw [mem_live, h.was there]
  rfl

/-- Two parts of each other show the same tracks. -/
theorem Contains.tracks_eq (h : b.Contains c) (back : c.Contains b) : c.tracks = b.tracks :=
  tracks_eq_of b.ids_ascending fun _ _ => mem_tracks.trans ⟨back.was, h.was⟩

theorem track?_only_live (h : b.Contains c) (id : Nat) :
    (b.only c.live).track? id = c.track? id := by
  rw [track?_only]
  cases there : c.track? id with
  | none => rw [if_neg fun mem => by rw [mem_live, there] at mem; cases mem]
  | some t => rw [if_pos (mem_live.mpr (by rw [there]; rfl)), h.was there]

theorem contains_only_live (h : b.Contains c) : c.Contains (b.only c.live) :=
  ⟨fun id => .inl (track?_only_live h id), h.pads.symm, h.zones.symm⟩

theorem only_live_contains (h : b.Contains c) : (b.only c.live).Contains c :=
  ⟨fun id => .inl (track?_only_live h id).symm, h.pads, h.zones⟩

/-! ## Dangling tracks go one by one -/

theorem Dangling.part (loose : b.Dangling id) (straight : b.StraightVias) (copper : b.CopperVias)
    (since : b.Contains c) (there : c.track? id = some t) : c.Dangling id := by
  have was := since.was there
  obtain ⟨side, loose⟩ := exists_loose straight was (dangling_iff.mp loose)
  have still : c.Loose id t side := loose.fades (fun isVia _ => copper.low was isVia) since
  exact dangling_iff.mpr (still.dangles (since.copper copper) there)

theorem Prunes.contains (h : b.Prunes c) : b.Contains c := by
  obtain ⟨id, _, rfl⟩ := h
  exact contains_remove b id

theorem Prunes.trackCount_lt (h : b.Prunes c) : c.trackCount < b.trackCount := by
  obtain ⟨id, loose, rfl⟩ := h
  obtain ⟨t, there⟩ := exists_track_of_dangles (dangling_iff.mp loose)
  have := trackCount_remove there
  omega

theorem contains_of_pruned (chain : ReflTransGen Prunes b c) : b.Contains c := by
  induction chain with
  | refl => exact .refl b
  | tail _ last ih => exact ih.trans last.contains

/-- A part in which nothing dangles is spared: its tracks would dangle in it as well. -/
theorem pruned_contains (chain : ReflTransGen Prunes b c) (straight : b.StraightVias)
    (copper : b.CopperVias) (part : b.Contains d) (anchored : d.Anchored) : c.Contains d := by
  induction chain with
  | refl => exact part
  | tail before last ih =>
    obtain ⟨id, loose, rfl⟩ := last
    have since := contains_of_pruned before
    refine ⟨fun other => ?_, ih.pads.trans (remove_pads _ id).symm,
      ih.zones.trans (remove_zones _ id).symm⟩
    rw [track?_remove]
    by_cases e : other = id
    · subst e
      cases there : d.track? other with
      | none => exact .inl (if_pos rfl).symm
      | some t =>
        exact absurd (loose.part (since.straight straight) (since.copper copper) ih there)
          (anchored other)
    · rw [if_neg e]
      exact ih.tracks other

/-- Whatever the order, the end is the same. -/
theorem pruned_unique (straight : b.StraightVias) (copper : b.CopperVias)
    (first : ReflTransGen Prunes b c) (second : ReflTransGen Prunes b d) (anchored : c.Anchored)
    (anchored' : d.Anchored) : c.Contains d ∧ d.Contains c :=
  ⟨pruned_contains first straight copper (contains_of_pruned second) anchored',
    pruned_contains second straight copper (contains_of_pruned first) anchored⟩

theorem isGreatest_of_pruned (straight : b.StraightVias) (copper : b.CopperVias)
    (chain : ReflTransGen Prunes b c) (anchored : c.Anchored) :
    IsGreatest {kept : Finset Nat | kept ⊆ b.live ∧ (b.only kept).Anchored} c.live := by
  have since := contains_of_pruned chain
  refine ⟨⟨since.live, fun id loose => ?_⟩, fun kept ⟨listed, anchored'⟩ id mem => ?_⟩
  · have part := contains_only b c.live
    obtain ⟨t, there⟩ := exists_track_of_dangles (dangling_iff.mp loose)
    exact anchored id (loose.part (part.straight straight) (part.copper copper)
      (only_live_contains since) ((contains_only_live since).was there))
  · have part := pruned_contains chain straight copper (contains_only b kept) anchored'
    obtain ⟨t, there⟩ := Option.isSome_iff_exists.mp (mem_live.mp (listed mem))
    have still : (b.only kept).track? id = some t := by rw [track?_only, if_pos mem, there]
    rw [mem_live, part.was still]
    rfl

/-- Tracks that dangled on the board may go, though others have gone before. -/
theorem pruned_removals (straight : b.StraightVias) (copper : b.CopperVias) {ids : List Nat}
    (loose : ∀ id ∈ ids, b.Dangling id) (since : b.Contains c) :
    ReflTransGen Prunes c (ids.foldl remove c) := by
  induction ids generalizing c with
  | nil => exact .refl
  | cons id rest ih =>
    have later : ReflTransGen Prunes (c.remove id) (rest.foldl Board.remove (c.remove id)) :=
      ih (fun n mem => loose n (List.mem_cons_of_mem id mem)) (since.remove trivial)
    cases there : c.track? id with
    | none =>
      have idle : c.remove id = c := by rw [remove, there]
      rw [idle] at later
      rwa [List.foldl_cons, idle]
    | some t =>
      have first := (loose id List.mem_cons_self).part straight copper since there
      exact .head ⟨id, first, rfl⟩ later

end Board

/-! ## Rounds of removals -/

namespace Run

variable {σ : Type} {r : Run Contacts σ}

theorem pruned_danglingRounds (limit : Nat) (h : r.Coherent) (straight : r.board.StraightVias)
    (copper : r.board.CopperVias) :
    ReflTransGen Board.Prunes r.board (danglingRounds limit r).1.board := by
  induction limit generalizing r with
  | zero => exact .refl
  | succ limit ih =>
    have fresh := h.refresh_fresh
    have straight' : r.refresh.board.StraightVias := r.refresh_board ▸ straight
    have copper' : r.refresh.board.CopperVias := r.refresh_board ▸ copper
    rw [← refresh_board r]
    unfold danglingRounds
    simp only
    split
    · exact .refl
    · have round : ReflTransGen Board.Prunes r.refresh.board
          ((r.refresh.board.ids.filter (dangles r.refresh.contacts r.refresh.board)).foldl
            (removeTrack .dangling) r.refresh).board := by
        rw [board_removals fun q => removeTrack_board q .dangling]
        refine Board.pruned_removals straight' copper' (fun id mem => ?_) (.refl _)
        exact Board.dangling_iff.mpr (fresh.mem_dangling.mp mem)
      have since := Board.contains_of_pruned round
      exact round.trans (ih (coherent_removals fresh.coherent .dangling _)
        (since.straight straight') (since.copper copper'))

theorem danglingRounds_succ (limit : Nat) (r : Run Contacts σ) :
    danglingRounds (limit + 1) r =
      let condemned := r.refresh.board.ids.filter (dangles r.refresh.contacts r.refresh.board)
      if condemned.isEmpty then (r.refresh, false)
      else ((danglingRounds limit (condemned.foldl (removeTrack .dangling) r.refresh)).1, true) :=
  rfl

theorem report_refresh (r : Run Contacts σ) (changed : Bool) :
    report (r.refresh, changed) = report (r, changed) := by
  unfold refresh
  split <;> rfl

theorem report_fst {first second : Run Contacts σ × Bool} (same : report first = report second)
    (changed : Bool) : report (first.1, changed) = report (second.1, changed) :=
  congrArg (fun shown => ({ shown.1 with modified := changed }, shown.2)) same

/-- More rounds than there are tracks make no difference. -/
theorem report_danglingRounds_succ (limit : Nat) (h : r.Coherent)
    (enough : r.board.trackCount ≤ limit) :
    report (danglingRounds (limit + 1) r) = report (danglingRounds limit r) := by
  induction limit generalizing r with
  | zero =>
    have none_live : r.refresh.board.ids = [] := by
      rw [refresh_board, Board.ids, List.map_eq_nil_iff]
      exact List.eq_nil_of_length_eq_zero (Nat.le_zero.mp enough)
    unfold danglingRounds
    simp only [none_live, List.filter_nil, List.isEmpty_nil, if_true]
    exact report_refresh r false
  | succ limit ih =>
    have fresh := h.refresh_fresh
    rw [danglingRounds_succ, danglingRounds_succ limit]
    simp only
    split
    · rfl
    · next some_loose =>
      have fewer := round_trackCount fun none => some_loose (List.isEmpty_iff.mpr none)
      have same : r.refresh.board.trackCount = r.board.trackCount := by rw [refresh_board]
      exact report_fst (ih (coherent_removals fresh.coherent .dangling _) (by omega)) true

theorem report_danglingRounds {limit : Nat} (h : r.Coherent) (enough : r.board.trackCount ≤ limit) :
    report (danglingRounds limit r) = report r.deleteDangling := by
  induction limit, enough using Nat.le_induction with
  | base => rfl
  | succ limit enough ih => rw [report_danglingRounds_succ limit h enough, ih]

theorem deleteDangling_anchored (h : r.Coherent) : r.deleteDangling.1.board.Anchored := by
  intro id loose
  have connected := danglingRounds_connected _ h (Nat.le_refl _) id
  exact Bool.eq_false_iff.mp connected (Board.dangling_iff.mp loose)

end Run
end CopperTidy
