import CopperTidy.Board.History
import CopperTidy.Board.Lemmas
import CopperTidy.Cleanup.Run

/-! # What a snapshot answers

A snapshot of the board as it is answers every question as a look at the board does. A run whose
snapshot was taken of an earlier state of its board is *coherent*: once it is refreshed, its
snapshot is one of the board as it is.
-/

namespace CopperTidy
set_option autoImplicit false

namespace Contacts

/-! ## Items at a point -/

theorem endingAt_of_entries (p : Point) (entries : List (Nat × Track)) :
    ((entries.flatMap fun entry => entry.2.ends.map fun q => (q, entry.1)).filter
        fun found => found.1 == p).map (·.2) =
      (entries.filter fun entry => entry.2.hasEndAt p).map (·.1) := by
  induction entries with
  | nil => rfl
  | cons entry rest ih =>
    rw [List.flatMap_cons, List.filter_append, List.map_append, ih, List.filter_cons]
    unfold Track.ends Track.hasEndAt
    by_cases same : entry.2.stop = entry.2.start
    · by_cases here : entry.2.start = p
      · simp [same, here]
      · simp [same, here]
    · by_cases first : entry.2.start = p
      · have other : ¬ entry.2.stop = p := fun e => same (e.trans first.symm)
        simp [first, other]
      · by_cases last : entry.2.stop = p
        · have ne : ¬ p = entry.2.start := fun e => first e.symm
          simp [first, last, ne]
        · simp [same, first, last]

theorem endingAt_build (b : Board) (p : Point) :
    (build b).endingAt p = (b.tracks.filter fun entry => entry.2.hasEndAt p).map (·.1) :=
  endingAt_of_entries p b.tracks

theorem itemsAt_build (b : Board) (id : Nat) (t : Track) (p : Point) (n : Neighbors) :
    (build b).itemsAt b id t p n = ContactSource.itemsAt (Scan.mk) b id t p n := by
  show ((build b).endingAt p).filter _ = (b.tracks.filter _).map _
  rw [endingAt_build, List.filter_map, List.filter_filter]
  congr 1
  apply List.filter_congr
  rintro ⟨other, u⟩ mem
  have live := Board.mem_tracks.mp mem
  simp only [Function.comp_apply, live, Option.any_some]
  cases u.hasEndAt p <;> simp

/-! ## Rows -/

theorem lookup_map_entries {α : Type} (f : Nat → Track → α) (id : Nat)
    (entries : List (Nat × Track)) :
    (entries.map fun entry => (entry.1, f entry.1 entry.2)).lookup id =
      (entries.lookup id).map (f id) := by
  induction entries with
  | nil => rfl
  | cons entry rest ih =>
    rw [List.map_cons, List.lookup_cons, List.lookup_cons, ih]
    cases h : id == entry.1 with
    | true =>
      have e : id = entry.1 := by simpa using h
      rw [e]
      rfl
    | false => rfl

theorem lookup_numbered (first id : Nat) (slots : List (Option Track)) :
    (Board.numbered first slots).lookup id =
      if first ≤ id then slots[id - first]?.join else none := by
  induction slots generalizing first with
  | nil => simp [Board.numbered]
  | cons slot rest ih =>
    have later : first + 1 ≤ id → id - first = (id - (first + 1)) + 1 := by omega
    have there : first ≠ id → (if first + 1 ≤ id then rest[id - (first + 1)]?.join else none) =
        if first ≤ id then (slot :: rest)[id - first]?.join else none := by
      intro ne
      by_cases le : first + 1 ≤ id
      · have le' : first ≤ id := by omega
        rw [if_pos le, if_pos le', later le, List.getElem?_cons_succ]
      · have le' : ¬ first ≤ id := by omega
        rw [if_neg le, if_neg le']
    by_cases e : first = id
    · subst e
      cases slot with
      | none =>
        have not_le : ¬ first + 1 ≤ first := by omega
        rw [Board.numbered, ih, if_neg not_le]
        simp
      | some t => simp [Board.numbered]
    · cases slot with
      | none => rw [Board.numbered, ih, there e]
      | some t =>
        have ne : (id == first) = false := by simpa using fun h => e h.symm
        rw [Board.numbered, List.lookup_cons, ne, ih, there e]

theorem lookup_tracks (b : Board) (id : Nat) : b.tracks.lookup id = b.track? id := by
  rw [Board.tracks, lookup_numbered]
  simp [Board.track?]

theorem row?_build (b : Board) (id : Nat) :
    (build b).row? id = (b.track? id).map (Touching.of b id) := by
  show (b.tracks.map fun entry => (entry.1, Touching.of b entry.1 entry.2)).lookup id = _
  rw [lookup_map_entries (Touching.of b), lookup_tracks]

theorem onPad_build (b : Board) (id : Nat) (side : Side) :
    (build b).onPad id side = ContactSource.onPad (Scan.mk) b id side := by
  show ((build b).row? id).any _ = (b.track? id).any _
  rw [row?_build]
  cases b.track? id with
  | none => rfl
  | some t =>
    have first (pads : List Nat) : pads.head?.isSome = !pads.isEmpty := by cases pads <;> rfl
    cases side with
    | start => exact first _
    | stop => exact first _

theorem padsOf_build (b : Board) (id : Nat) :
    ContactSource.padsOf (build b) b id = ContactSource.padsOf (Scan.mk) b id := by
  show (((build b).row? id).map (·.pads)).getD [] = _
  rw [row?_build, Option.map_map]
  rfl

theorem tracksOf_build (b : Board) (id : Nat) :
    ContactSource.tracksOf (build b) b id = ContactSource.tracksOf (Scan.mk) b id := by
  show (((build b).row? id).map (·.tracks)).getD [] = _
  rw [row?_build, Option.map_map]
  rfl

end Contacts

/-! ## Runs with a snapshot -/

namespace Run

variable {σ : Type}

/-- The snapshot of the run was taken of its board, now or at an earlier time. -/
def Coherent (r : Run Contacts σ) : Prop :=
  ∃ b, r.contacts = Contacts.build b ∧ Board.Later b r.board

/-- The snapshot of the run was taken of its board as it is. -/
def Fresh (r : Run Contacts σ) : Prop := r.contacts = Contacts.build r.board

theorem Fresh.coherent {r : Run Contacts σ} (h : r.Fresh) : r.Coherent := ⟨r.board, h, .refl⟩

theorem start_fresh (b : Board) (observer : Observer σ) (seen : σ) :
    (start (ι := Contacts) b observer seen).Fresh := rfl

theorem rebuild_fresh (r : Run Contacts σ) : r.rebuild.Fresh := rfl

theorem Fresh.rebuild_eq {r : Run Contacts σ} (h : r.Fresh) : r.rebuild = r := by
  unfold Run.rebuild
  rw [show ContactSource.build r.board = r.contacts from h.symm]

/-- A snapshot that calls itself current is one of the board as it is. -/
theorem Coherent.refresh_eq {r : Run Contacts σ} (h : r.Coherent) : r.refresh = r.rebuild := by
  obtain ⟨b, built, later⟩ := h
  unfold refresh
  split
  · next current =>
    have same : b.revision = r.board.revision := by
      have h : (r.contacts.revision == r.board.revision) = true := current
      rw [built] at h
      simpa [Contacts.build] using h
    have eq : r.board = b := later.eq_of_revision same.symm
    have fresh : r.Fresh := by
      rw [Fresh, eq]
      exact built
    exact fresh.rebuild_eq.symm
  · rfl

theorem Coherent.refresh_fresh {r : Run Contacts σ} (h : r.Coherent) : r.refresh.Fresh := by
  rw [h.refresh_eq]
  exact rebuild_fresh r

theorem refresh_board (r : Run Contacts σ) : r.refresh.board = r.board := by
  unfold refresh
  split <;> rfl

theorem refresh_log (r : Run Contacts σ) : r.refresh.log = r.log := by
  unfold refresh
  split <;> rfl

theorem Fresh.refresh_eq {r : Run Contacts σ} (h : r.Fresh) : r.refresh = r :=
  h.coherent.refresh_eq.trans h.rebuild_eq

/-- A change of the board leaves the snapshot behind, but of the same board. -/
theorem Coherent.step {r s : Run Contacts σ} (h : r.Coherent) (same : s.contacts = r.contacts)
    (last : Board.Step r.board s.board) : s.Coherent := by
  obtain ⟨b, built, later⟩ := h
  exact ⟨b, same.trans built, .step later last⟩

end Run
end CopperTidy
