import CopperTidy.Board.Basic

/-! # The life of a board

`Board.Step` is one operation on a board and `Board.Later` any number of them. Every operation
either raises the revision by one or leaves the board as it is, so a board with the revision of an
earlier one is that board.
-/

namespace CopperTidy.Board
set_option autoImplicit false

inductive Step : Board → Board → Prop
  | addTrack (b : Board) (t : Track) : Step b (b.addTrack t)
  | addPad (b : Board) (pad : Pad) : Step b (b.addPad pad)
  | addZone (b : Board) (z : Zone) : Step b (b.addZone z)
  | modify (b : Board) (id : Nat) (edit : Track → Track) : Step b (b.modify id edit)
  | remove (b : Board) (id : Nat) : Step b (b.remove id)
  | restore (b : Board) (id : Nat) (t : Track) : Step b (b.restore id t)
  | sortByNet (b : Board) : Step b b.sortByNet

inductive Later (b : Board) : Board → Prop
  | refl : Later b b
  | step {c d : Board} (before : Later b c) (last : Step c d) : Later b d

theorem Later.trans {b c d : Board} (first : Later b c) (second : Later c d) : Later b d := by
  induction second with
  | refl => exact first
  | step _ last ih => exact .step ih last

theorem Step.revision {b c : Board} (h : Step b c) : c = b ∨ c.revision = b.revision + 1 := by
  cases h with
  | addTrack | addPad | addZone | restore | sortByNet => exact .inr rfl
  | modify id edit =>
    rw [Board.modify]
    split
    · exact .inl rfl
    · exact .inr rfl
  | remove id =>
    rw [Board.remove]
    split
    · exact .inl rfl
    · exact .inr rfl

theorem Later.revision_le {b c : Board} (h : Later b c) : b.revision ≤ c.revision := by
  induction h with
  | refl => exact Nat.le_refl _
  | step _ last ih =>
    rcases last.revision with same | next
    · rw [same]
      exact ih
    · omega

/-- A board that has kept its revision has kept everything. -/
theorem Later.eq_of_revision {b c : Board} (h : Later b c) (same : c.revision = b.revision) :
    c = b := by
  induction h with
  | refl => rfl
  | step before last ih =>
    rcases last.revision with eq | next
    · rw [eq] at same ⊢
      exact ih same
    · have := before.revision_le
      omega

end CopperTidy.Board
