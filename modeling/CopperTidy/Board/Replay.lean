import CopperTidy.Board.Change

/-! # Changes told forwards

A change tells what was in a slot and what came instead. `Change.replay?` does the change again, and
refuses if the slot holds something else, so a list of changes that can be replayed is an exact
account of how one track sequence became another. Undoing a change that was replayed gives the
sequence before it.
-/

namespace CopperTidy
set_option autoImplicit false

namespace Change

/-- The slot that a change is about. -/
def id : Change → Nat
  | .removed id _ _ | .modified id _ _ => id

/-- What the slot held before. -/
def before : Change → Track
  | .removed _ track _ => track
  | .modified _ before _ => before

/-- What the slot holds afterwards. -/
def after : Change → Option Track
  | .removed .. => none
  | .modified _ _ after => some after

/-- The slots after a change, if the change fits them. -/
def replay? (slots : List (Option Track)) (c : Change) : Option (List (Option Track)) :=
  if slots[c.id]? = some (some c.before) then some (slots.set c.id c.after) else none

/-- The slots after a list of changes, oldest first. -/
def replayAll? (slots : List (Option Track)) (changes : List Change) :
    Option (List (Option Track)) :=
  changes.foldlM replay? slots

theorem undo_eq_restore (b : Board) (c : Change) : c.undo b = b.restore c.id c.before := by
  cases c <;> rfl

/-- Undoing what was replayed. -/
theorem slots_undo_of_replay? {b : Board} {c : Change} {slots : List (Option Track)}
    (h : c.replay? slots = some b.slots) : (c.undo b).slots = slots := by
  rw [replay?] at h
  split at h
  · next fits =>
    have eq : slots.set c.id c.after = b.slots := Option.some.inj h
    have size : c.id < slots.length := (List.getElem?_eq_some_iff.mp fits).1
    have none_missing : c.id + 1 - (slots.set c.id c.after).length = 0 := by simp; omega
    rw [undo_eq_restore, Board.restore, ← eq, none_missing, List.replicate_zero, List.append_nil,
      List.set_set]
    apply List.ext_getElem?
    intro i
    by_cases e : c.id = i
    · subst e
      rw [List.getElem?_set_self size, fits]
    · rw [List.getElem?_set_ne e]
  · cases h

end Change
end CopperTidy
