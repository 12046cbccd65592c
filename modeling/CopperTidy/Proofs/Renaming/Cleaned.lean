import CopperTidy.Proofs.Renaming.Runs
import Mathlib.Logic.Function.Basic
import Mathlib.Order.Monotone.Basic

/-! # What a cleaning depends on

Every board shows the tracks of a board without gaps and without uuids. Two boards with the same
tracks in the same order show those of one and the same such board, so a cleaning does the same to
both, whichever slots are empty and whatever the uuids are.
-/

namespace CopperTidy
set_option autoImplicit false

def Track.anonymous (t : Track) : Track := { t with uuid := "" }

namespace Board

/-- The live tracks in slots without gaps, and without uuids. -/
def compact (b : Board) : Board where
  slots := b.tracks.map fun entry => some entry.2.anonymous
  pads := b.pads
  zones := b.zones

/-- From the places of the tracks in the sequence to their ids and uuids. Places where no track is
get ids that are not on the board. -/
def unpacking (b : Board) : Renaming where
  number n := b.ids[n]?.getD (b.slots.length + n)
  name n := (b.tracks[n]?.map (·.2.uuid)).getD ""

variable {b c : Board}

theorem lt_of_mem_ids {id : Nat} (mem : id ∈ b.ids) : id < b.slots.length := by
  obtain ⟨t, there⟩ := Option.isSome_iff_exists.mp (mem_ids.mp mem)
  exact lt_of_track? there

theorem unpacking_grows (b : Board) : StrictMono b.unpacking.number := by
  refine strictMono_nat_of_lt_succ fun n => ?_
  simp only [unpacking]
  by_cases next : n + 1 < b.ids.length
  · rw [List.getElem?_eq_getElem next, List.getElem?_eq_getElem (Nat.lt_of_succ_lt next)]
    exact List.pairwise_iff_getElem.mp b.ids_ascending _ _ _ next (Nat.lt_succ_self n)
  · rw [List.getElem?_eq_none (Nat.not_lt.mp next), Option.getD_none]
    by_cases here : n < b.ids.length
    · rw [List.getElem?_eq_getElem here, Option.getD_some]
      have := lt_of_mem_ids (List.getElem_mem here)
      omega
    · rw [List.getElem?_eq_none (Nat.not_lt.mp here), Option.getD_none]
      omega

theorem getElem?_numbered (first : Nat) (l : List Track) (n : Nat) :
    (numbered first (l.map some))[n]? = l[n]?.map fun t => (first + n, t) := by
  induction l generalizing first n with
  | nil => rfl
  | cons t rest ih =>
    cases n with
    | zero => rfl
    | succ n =>
      show (numbered (first + 1) (rest.map some))[n]? = _
      rw [ih, List.getElem?_cons_succ, Nat.add_right_comm, Nat.add_assoc]

theorem compact_mirrors (b : Board) : b.unpacking.Mirrors b.compact b := by
  refine ⟨unpacking_grows b, List.ext_getElem? fun n => ?_, rfl, rfl⟩
  have packed : b.compact.tracks = numbered 0 ((b.tracks.map (·.2.anonymous)).map some) := by
    rw [List.map_map]
    rfl
  rw [packed, List.getElem?_map, getElem?_numbered, List.getElem?_map]
  cases there : b.tracks[n]? with
  | none => rfl
  | some entry =>
    have number : b.unpacking.number n = entry.1 := by
      simp only [unpacking, ids, List.getElem?_map, there, Option.map_some, Option.getD_some]
    have name : b.unpacking.name n = entry.2.uuid := by
      simp only [unpacking, there, Option.map_some, Option.getD_some]
    simp only [Option.map_some, Renaming.entry, Renaming.track, Nat.zero_add, number, name]
    rfl

end Board

/-! ## Cleanings -/

namespace Renaming

variable {ρ : Renaming} {b c : Board}

theorem clean_eq_scan (b : Board) (o : Options) :
    let s : Run Scan Unit × Bool := Run.cleanup o (Run.start b Observer.silent ())
    b.clean o = ⟨s.2, s.1.board, s.1.log, s.1.stats⟩ := by
  have scanned := Run.scanning_cleanup o (Run.start b Observer.silent () : Run Contacts Unit)
  intro s
  have same : s = Run.scanned (Run.cleanup o (Run.start b Observer.silent () : Run Contacts Unit)) :=
    scanned
  rw [same, Board.clean_eq]
  rfl

theorem Mirrors.clean (h : ρ.Mirrors b c) (o : Options) :
    (c.clean o).modified = (b.clean o).modified ∧ (c.clean o).stats = (b.clean o).stats ∧
      (c.clean o).changes = (b.clean o).changes.map ρ.change ∧
      ρ.Mirrors (b.clean o).board (c.clean o).board := by
  have starts : ρ.Follows (Run.start b Observer.silent () : Run Scan Unit)
      (Run.start c Observer.silent () : Run Scan Unit) := ⟨h, rfl, rfl⟩
  obtain ⟨⟨board, log, stats⟩, told⟩ := starts.cleanup o
  rw [clean_eq_scan, clean_eq_scan]
  exact ⟨told, stats, log, board⟩

/-- Back along the first renaming, and on along the second. -/
noncomputable def across (ρ κ : Renaming) : Renaming where
  number id := κ.number (Function.invFun ρ.number id)
  name id := κ.name (Function.invFun ρ.number id)

section Across

variable {κ : Renaming} (grows : StrictMono ρ.number)
include grows

theorem across_number (id : Nat) : (ρ.across κ).number (ρ.number id) = κ.number id :=
  congrArg κ.number (Function.leftInverse_invFun grows.injective id)

theorem across_track (id : Nat) (t : Track) :
    (ρ.across κ).track (ρ.number id) (ρ.track id t) = κ.track id t := by
  have name : (ρ.across κ).name (ρ.number id) = κ.name id :=
    congrArg κ.name (Function.leftInverse_invFun grows.injective id)
  rw [track, name]
  rfl

theorem across_entry (e : Nat × Track) : (ρ.across κ).entry (ρ.entry e) = κ.entry e :=
  Prod.ext (across_number grows e.1) (across_track grows e.1 e.2)

theorem across_change (change : Change) :
    (ρ.across κ).change (ρ.change change) = κ.change change := by
  cases change with
  | removed id | modified id =>
    simp only [Renaming.change, across_number grows, across_track grows]

end Across

theorem Mirrors.tracks_across {κ : Renaming} {d : Board} (first : ρ.Mirrors b c)
    (second : κ.Mirrors b d) : d.tracks = c.tracks.map (ρ.across κ).entry := by
  rw [second.tracks, first.tracks, List.map_map]
  exact List.map_congr_left fun e _ => (across_entry first.grows e).symm

end Renaming

namespace Board

/-- Two boards with the same pads, the same zones and, up to ids and uuids, the same tracks in the
same order: a cleaning tells, counts and logs the same of both, and leaves the same tracks on both,
under the ids and uuids that each board has for them. -/
theorem clean_renamed (b c : Board) (pads : c.pads = b.pads) (zones : c.zones = b.zones)
    (same : c.tracks.map (·.2.anonymous) = b.tracks.map (·.2.anonymous)) (o : Options) :
    ∃ ρ : Renaming, StrictMonoOn ρ.number {id | id ∈ b.ids} ∧ c.tracks = b.tracks.map ρ.entry ∧
      (c.clean o).modified = (b.clean o).modified ∧ (c.clean o).stats = (b.clean o).stats ∧
      (c.clean o).changes = (b.clean o).changes.map ρ.change ∧
      (c.clean o).board.tracks = (b.clean o).board.tracks.map ρ.entry := by
  have compact : c.compact = b.compact := by
    have slots := congrArg (List.map some) same
    rw [List.map_map, List.map_map] at slots
    rw [Board.compact, Board.compact, pads, zones, Board.mk.injEq]
    exact ⟨slots, rfl, rfl, rfl⟩
  have first := b.compact_mirrors
  have second : c.unpacking.Mirrors b.compact c := compact ▸ c.compact_mirrors
  obtain ⟨toldB, statsB, logB, cleanedB⟩ := first.clean o
  obtain ⟨toldC, statsC, logC, cleanedC⟩ := second.clean o
  refine ⟨b.unpacking.across c.unpacking, ?_, first.tracks_across second, toldC.trans toldB.symm,
    statsC.trans statsB.symm, ?_, cleanedB.tracks_across cleanedC⟩
  · have unpacked {id : Nat} (mem : id ∈ b.ids) : ∃ n, b.unpacking.number n = id := by
      rw [first.ids, List.mem_map] at mem
      obtain ⟨n, _, number⟩ := mem
      exact ⟨n, number⟩
    intro i hi j hj less
    obtain ⟨m, rfl⟩ := unpacked hi
    obtain ⟨n, rfl⟩ := unpacked hj
    rw [Renaming.across_number first.grows, Renaming.across_number first.grows]
    exact second.grows (first.grows.lt_iff_lt.mp less)
  · rw [logC, logB, List.map_map]
    exact List.map_congr_left fun change _ => (Renaming.across_change first.grows change).symm

/-- Two traces in line between two pads, and one that leads away, after two removals. -/
def gapped : Board :=
  let trace (uuid : String) (start stop : Point) : Option Track :=
    some ⟨uuid, start, stop, 200, .front, 1, .trace⟩
  { slots := [none, trace "a" ⟨0, 0⟩ ⟨10, 0⟩, trace "b" ⟨0, 0⟩ ⟨0, 10⟩, none,
      trace "c" ⟨10, 0⟩ ⟨20, 0⟩]
    pads := [⟨"U1", "1", ⟨0, 0⟩, 1, .single .front, .smd⟩,
      ⟨"U1", "2", ⟨20, 0⟩, 1, .single .front, .smd⟩]
    revision := 10 }

/-- The same tracks, read from a file without uuids. -/
def reloaded : Board :=
  let trace (uuid : String) (start stop : Point) : Option Track :=
    some ⟨uuid, start, stop, 200, .front, 1, .trace⟩
  { slots := [trace "x" ⟨0, 0⟩ ⟨10, 0⟩, trace "y" ⟨0, 0⟩ ⟨0, 10⟩, trace "z" ⟨10, 0⟩ ⟨20, 0⟩]
    pads := gapped.pads }

theorem clean_renamed_reloaded :
    reloaded.pads = gapped.pads ∧ reloaded.zones = gapped.zones ∧
      reloaded.tracks.map (·.2.anonymous) = gapped.tracks.map (·.2.anonymous) ∧
      (gapped.clean {}).changes.length = 3 ∧
      ∃ ρ : Renaming, reloaded.tracks = gapped.tracks.map ρ.entry ∧
        (reloaded.clean {}).changes = (gapped.clean {}).changes.map ρ.change ∧
        (reloaded.clean {}).board.tracks = (gapped.clean {}).board.tracks.map ρ.entry := by
  have same : reloaded.tracks.map (·.2.anonymous) = gapped.tracks.map (·.2.anonymous) := by decide
  obtain ⟨ρ, _, tracks, _, _, changes, cleaned⟩ := clean_renamed gapped reloaded rfl rfl same {}
  exact ⟨rfl, rfl, same, by decide +kernel, ρ, tracks, changes, cleaned⟩

end Board
end CopperTidy
