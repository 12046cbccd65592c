import CopperTidy.Board.Replay
import CopperTidy.Proofs.Passes

/-! # Runs that only take tracks away

`Run.Drops r cs s` says that a run has gone on from `r` to `s` by removals, and that `cs` is what it
logged of them. The log then tells which tracks are gone, and all else on the board is as it was.
-/

namespace CopperTidy.Run
set_option autoImplicit false

variable {σ : Type} {r s q : Run Contacts σ}

structure Drops (r : Run Contacts σ) (cs : List Change) (s : Run Contacts σ) : Prop where
  contacts : s.contacts = r.contacts
  log : s.log = r.log ++ cs
  tracks : ∀ id,
    s.board.track? id = if id ∈ cs.map Change.id then none else r.board.track? id
  pads : s.board.pads = r.board.pads
  zones : s.board.zones = r.board.zones

theorem Drops.refl (r : Run Contacts σ) : r.Drops [] r :=
  ⟨rfl, (List.append_nil _).symm, fun _ => rfl, rfl, rfl⟩

theorem Drops.trans {cs ds : List Change} (first : r.Drops cs s) (second : s.Drops ds q) :
    r.Drops (cs ++ ds) q := by
  refine ⟨second.contacts.trans first.contacts, ?_, fun id => ?_,
    second.pads.trans first.pads, second.zones.trans first.zones⟩
  · rw [second.log, first.log, List.append_assoc]
  · rw [second.tracks, first.tracks, List.map_append]
    by_cases later : id ∈ ds.map Change.id
    · rw [if_pos later, if_pos (List.mem_append_right _ later)]
    · simp only [List.mem_append, later, or_false, if_false]

/-- The tracks that are left, if the log is known to tell of just those with a property. -/
theorem Drops.track?_iff {cs : List Change} {P : Nat → Track → Prop} (h : r.Drops cs s)
    (gone : ∀ id, id ∈ cs.map Change.id ↔ ∃ t, r.board.track? id = some t ∧ P id t) (id : Nat)
    (t : Track) : s.board.track? id = some t ↔ r.board.track? id = some t ∧ ¬ P id t := by
  rw [h.tracks]
  by_cases out : id ∈ cs.map Change.id
  · obtain ⟨u, there, why⟩ := (gone id).mp out
    rw [if_pos out]
    constructor
    · intro none
      cases none
    · rintro ⟨there', kept⟩
      cases there.symm.trans there'
      exact absurd why kept
  · rw [if_neg out]
    exact ⟨fun there => ⟨there, fun why => out ((gone id).mpr ⟨t, there, why⟩)⟩, And.left⟩

/-- The ids of a log, if it is known to tell of just the removals of tracks with a property. -/
theorem mem_ids_of_logged {cs : List Change} {P : Nat → Track → Prop} {reason : Reason}
    (logged : ∀ change, change ∈ cs ↔
      ∃ id t, r.board.track? id = some t ∧ P id t ∧ change = .removed id t reason) (id : Nat) :
    id ∈ cs.map Change.id ↔ ∃ t, r.board.track? id = some t ∧ P id t := by
  rw [List.mem_map]
  constructor
  · rintro ⟨change, mem, rfl⟩
    obtain ⟨id, t, live, holds, rfl⟩ := (logged change).mp mem
    exact ⟨t, live, holds⟩
  · rintro ⟨t, live, holds⟩
    exact ⟨_, (logged _).mpr ⟨id, t, live, holds, rfl⟩, rfl⟩

theorem Drops.fading {cs : List Change} (h : r.Drops cs s) : Fading r s := by
  refine ⟨h.contacts, fun id => ?_, h.pads, h.zones⟩
  rw [h.tracks]
  split
  · exact .inr ⟨rfl, trivial⟩
  · exact .inl rfl

theorem drops_removeTrack {id : Nat} {t : Track} (there : r.board.track? id = some t)
    (reason : Reason) : r.Drops [.removed id t reason] (r.removeTrack reason id) := by
  refine ⟨removeTrack_contacts r reason id, removeTrack_log there reason, fun n => ?_, ?_, ?_⟩
  · rw [removeTrack_board, Board.track?_remove]
    simp [Change.id]
  · rw [removeTrack_board, Board.remove_pads]
  · rw [removeTrack_board, Board.remove_zones]

theorem Drops.seen {cs : List Change} (h : r.Drops cs s) (seen : σ) :
    r.Drops cs { s with seen := seen } :=
  ⟨h.contacts, h.log, h.tracks, h.pads, h.zones⟩

theorem drops_absorbTrack {id : Nat} {t : Track} (there : r.board.track? id = some t)
    (reason : Reason) (survivor : Nat) :
    r.Drops [.removed id t reason] (r.absorbTrack reason survivor id) := by
  obtain ⟨seen, absorbed⟩ := absorbTrack_eq r reason survivor id
  rw [absorbed]
  exact (drops_removeTrack there reason).seen seen

/-- Live tracks that are taken away in turn are logged in that order. -/
theorem drops_foldl {step : Run Contacts σ → Nat → Run Contacts σ} {reason : Reason}
    (takes : ∀ (q : Run Contacts σ) id t, q.board.track? id = some t →
      q.Drops [.removed id t reason] (step q id))
    {entries : List (Nat × Track)}
    (live : ∀ entry ∈ entries, r.board.track? entry.1 = some entry.2)
    (once : (entries.map (·.1)).Nodup) :
    r.Drops (entries.map fun entry => .removed entry.1 entry.2 reason)
      ((entries.map (·.1)).foldl step r) := by
  induction entries generalizing r with
  | nil => exact .refl r
  | cons entry rest ih =>
    obtain ⟨fresh, once⟩ := List.nodup_cons.mp once
    have first := takes r entry.1 entry.2 (live entry List.mem_cons_self)
    refine first.trans (ih (fun other mem => ?_) once)
    have ne : other.1 ≠ entry.1 := fun e => fresh (List.mem_map.mpr ⟨other, mem, e⟩)
    rw [first.tracks, if_neg (by simpa [Change.id] using ne)]
    exact live other (List.mem_cons_of_mem entry mem)

theorem drops_removals {reason : Reason} {entries : List (Nat × Track)}
    (live : ∀ entry ∈ entries, r.board.track? entry.1 = some entry.2)
    (once : (entries.map (·.1)).Nodup) :
    r.Drops (entries.map fun entry => .removed entry.1 entry.2 reason)
      ((entries.map (·.1)).foldl (removeTrack reason) r) :=
  drops_foldl (fun _ _ _ there => drops_removeTrack there reason) live once

/-- What a step keeps of the entries looked at so far holds of all of them after the scan. -/
theorem forEach_scan {step : Run Contacts σ → Nat → Run Contacts σ × Bool}
    {P : List (Nat × Track) → Run Contacts σ → Prop} {entries : List (Nat × Track)}
    (each : ∀ before id t after q, entries = before ++ (id, t) :: after → P before q →
      P (before ++ [(id, t)]) (step q id).1) (none : P [] r) :
    P entries (forEach step r (entries.map (·.1))).1 := by
  have scan (after before : List (Nat × Track)) (split : entries = before ++ after)
      (q : Run Contacts σ) (kept : P before q) :
      P entries (forEach step q (after.map (·.1))).1 := by
    induction after generalizing before q with
    | nil =>
      rw [List.append_nil] at split
      rw [split]
      exact kept
    | cons entry rest ih =>
      refine ih (before ++ [entry]) (by rw [split, List.append_assoc, List.singleton_append]) _ ?_
      exact each before entry.1 entry.2 rest q split kept
  exact scan entries [] rfl r none

end CopperTidy.Run
