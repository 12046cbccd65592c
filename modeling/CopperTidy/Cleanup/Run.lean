import CopperTidy.Board.Change
import CopperTidy.Board.Contact
import CopperTidy.Cleanup.Stats

/-! # Runs

A run is a cleaning under way: the board, what is known of its contacts, the changes so far and
their counters, and what an observer has seen. Every pass changes the board through `removeTrack`,
`absorbTrack` and `modifyTrack`, so every change is logged, and an observer hears of every removal.
-/

namespace CopperTidy
set_option autoImplicit false

/-! ## Observers -/

/-- Who wants to hear of removals, for things that hang on tracks, such as teardrops. What an
observer has seen so far is a value of `σ`; nothing in a run depends on it. -/
structure Observer (σ : Type) where
  /-- A track is about to be removed. -/
  beforeRemove : (track : Track) → σ → σ
  /-- A removed track was a copy of the survivor, or became part of it. -/
  reattach : (survivor removed : Track) → σ → σ

/-- The observer that ignores everything. -/
def Observer.silent : Observer Unit := ⟨fun _ => id, fun _ _ => id⟩

inductive Notice
  | beforeRemove (track : Track)
  | reattach (survivor removed : Track)
  deriving DecidableEq, Repr

/-- The observer that writes everything down, oldest first. -/
def Observer.recorder : Observer (List Notice) :=
  ⟨fun t seen => seen ++ [.beforeRemove t], fun s t seen => seen ++ [.reattach s t]⟩

/-! ## Changing the board -/

structure Run (ι σ : Type) where
  board : Board
  contacts : ι
  log : List Change := []
  stats : Stats := {}
  observer : Observer σ
  seen : σ

namespace Run

variable {ι σ : Type}

def reattach (r : Run ι σ) (survivor : Nat) (removed : Track) : Run ι σ :=
  match r.board.track? survivor with
  | some s => { r with seen := r.observer.reattach s removed r.seen }
  | none => r

/-- Takes a live track off the board. -/
def removeTrack (reason : Reason) (r : Run ι σ) (id : Nat) : Run ι σ :=
  match r.board.track? id with
  | some t =>
    { r with
      board := r.board.remove id
      log := r.log ++ [.removed id t reason]
      stats := r.stats.count reason
      seen := r.observer.beforeRemove t r.seen }
  | none => r

/-- Takes a live track off the board, and offers it to the track that stands in for it. -/
def absorbTrack (reason : Reason) (survivor : Nat) (r : Run ι σ) (id : Nat) : Run ι σ :=
  match r.board.track? id with
  | some t => (r.removeTrack reason id).reattach survivor t
  | none => r

/-- Edits a live track in its slot. -/
def modifyTrack (edit : Track → Track) (r : Run ι σ) (id : Nat) : Run ι σ :=
  match r.board.track? id with
  | some t =>
    { r with board := r.board.modify id edit, log := r.log ++ [.modified id t (edit t)] }
  | none => r

/-- A step that tells whether it changed anything, for each id in turn. -/
def forEach (step : Run ι σ → Nat → Run ι σ × Bool) (r : Run ι σ) : List Nat → Run ι σ × Bool
  | [] => (r, false)
  | id :: rest =>
    let (r, changed) := step r id
    let (r, later) := forEach step r rest
    (r, changed || later)

/-! ## Contacts -/

variable [ContactSource ι]

def start (b : Board) (observer : Observer σ) (seen : σ) : Run ι σ :=
  { board := b, contacts := ContactSource.build b, observer, seen }

def rebuild (r : Run ι σ) : Run ι σ := { r with contacts := ContactSource.build r.board }

/-- The run with contacts of the board as it is. -/
def refresh (r : Run ι σ) : Run ι σ :=
  if ContactSource.isCurrent r.contacts r.board then r else r.rebuild

/-- Live tracks of the asking track's net at one of its ends. -/
def attached (r : Run ι σ) (id : Nat) (side : Side) : List Nat :=
  ContactSource.connectedAt r.contacts r.board id side { sameNet := true }

end Run
end CopperTidy
