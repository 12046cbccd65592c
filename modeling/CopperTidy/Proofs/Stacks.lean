import CopperTidy.Proofs.Drops
import CopperTidy.Proofs.Islands.Sound
import CopperTidy.Proofs.Tidy
import CopperTidy.Proofs.Undo

/-! # Which through vias stay

Through vias are looked at in sequence order. The first one at a point takes the later ones off the
board, and then goes itself if a pad through all copper layers is there; when a later one is looked
at it is gone already. So what goes on account of a via can be told from the board as it was when
the pass began (`Board.viaChanges`), although the board shrinks under the scan.
-/

namespace CopperTidy
set_option autoImplicit false

namespace Board

/-- A through via stands earlier in the sequence at the same point. -/
def Stacked (b : Board) (id : Nat) (via : Track) : Prop :=
  ∃ first u, first < id ∧ b.track? first = some u ∧ u.isThroughVia = true ∧ u.start = via.start

/-- A plated pad through all copper layers is at the point. -/
def OnThroughPad (b : Board) (via : Track) : Prop :=
  ∃ pad ∈ b.pads, pad.kind ≠ .nonPlated ∧ pad.onAllCopper = true ∧ pad.position = via.start

/-- Live tracks that are later through vias at the point of a via. -/
def stack (b : Board) (id : Nat) (via : Track) : List (Nat × Track) :=
  (b.tracksAfter id).filter fun entry => via.duplicateVias entry.2

open scoped Classical in
/-- What is logged when a track is looked at: at the first through via of a point the others go, and
then the first one, if a pad is there. -/
noncomputable def viaChanges (b : Board) (entry : Nat × Track) : List Change :=
  if entry.2.isThroughVia = true ∧ ¬ b.Stacked entry.1 entry.2 then
    ((b.stack entry.1 entry.2).map fun later => .removed later.1 later.2 .duplicateVia) ++
      if b.OnThroughPad entry.2 then [.removed entry.1 entry.2 .viaOnThroughPad] else []
  else []

variable {b c : Board} {id n : Nat} {t via : Track} {before after : List (Nat × Track)}

/-! ## First and later vias of a point -/

theorem mem_stack : (n, t) ∈ b.stack id via ↔
    id < n ∧ b.track? n = some t ∧ via.isThroughVia = true ∧ t.isThroughVia = true ∧
      via.start = t.start := by
  simp only [stack, List.mem_filter, mem_tracksAfter, Track.duplicateVias, Bool.and_eq_true,
    beq_iff_eq, and_assoc]

/-- The first via of a stack. -/
theorem Stacked.exists_first (h : b.Stacked id via) : ∃ first u, first < id ∧
    b.track? first = some u ∧ u.isThroughVia = true ∧ u.start = via.start ∧
      ¬ b.Stacked first u := by
  induction id using Nat.strongRecOn generalizing via with
  | ind id ih =>
    obtain ⟨first, u, lt, there, through, place⟩ := h
    by_cases stacked : b.Stacked first u
    · obtain ⟨least, v, below, there', through', place', alone⟩ := ih first lt stacked
      exact ⟨least, v, Nat.lt_trans below lt, there', through', place'.trans place, alone⟩
    · exact ⟨first, u, lt, there, through, place, stacked⟩

theorem meets_through_iff {pad : Pad} (straight : Run.isMalformedVia via = false)
    (through : via.isThroughVia = true) (copper : pad.onAllCopper = true) :
    pad.meets via = true ↔ pad.kind ≠ .nonPlated ∧ pad.position = via.start := by
  simp only [Pad.meets_iff, Track.hasEndAt_via straight (isThroughVia_isVia through), Pad.hits,
    Bool.and_eq_true, bne_iff_ne, beq_iff_eq]
  have conducts : pad.layers.intersects via.layers = true := LayerSet.intersects_iff.mpr
    ⟨0, Pad.testBit_of_onAllCopper copper (by decide),
      (Track.testBit_layers_of_isThroughVia through).mpr (by decide)⟩
  constructor
  · rintro ⟨p, rfl, ⟨plated, place⟩, _⟩
    exact ⟨plated, place⟩
  · rintro ⟨plated, place⟩
    exact ⟨via.start, rfl, ⟨plated, place⟩, conducts⟩

theorem onThroughPad_iff (straight : Run.isMalformedVia via = false)
    (through : via.isThroughVia = true) : b.OnThroughPad via ↔
      ∃ pad ∈ b.pads, pad.onAllCopper = true ∧ pad.meets via = true := by
  refine exists_congr fun pad => and_congr_right fun _ => ?_
  constructor
  · rintro ⟨plated, copper, place⟩
    exact ⟨copper, (meets_through_iff straight through copper).mpr ⟨plated, place⟩⟩
  · rintro ⟨copper, meets⟩
    obtain ⟨plated, place⟩ := (meets_through_iff straight through copper).mp meets
    exact ⟨plated, copper, place⟩

/-! ## What is logged -/

theorem mem_viaChanges {change : Change} {entry : Nat × Track} :
    change ∈ b.viaChanges entry ↔ (entry.2.isThroughVia = true ∧ ¬ b.Stacked entry.1 entry.2) ∧
      ((∃ later ∈ b.stack entry.1 entry.2, change = .removed later.1 later.2 .duplicateVia) ∨
        b.OnThroughPad entry.2 ∧ change = .removed entry.1 entry.2 .viaOnThroughPad) := by
  unfold viaChanges
  by_cases first : entry.2.isThroughVia = true ∧ ¬ b.Stacked entry.1 entry.2
  · rw [if_pos first]
    by_cases onPad : b.OnThroughPad entry.2
    · simp [first, onPad, eq_comm]
    · simp [first, onPad, eq_comm]
  · simp [first]

/-- Ids that the log so far has taken off the board. -/
theorem mem_ids_viaChanges (listed : ∀ n t, (n, t) ∈ before → b.track? n = some t) :
    id ∈ (before.flatMap b.viaChanges).map Change.id ↔
      ∃ via, b.track? id = some via ∧ via.isThroughVia = true ∧
        ((∃ first u, (first, u) ∈ before ∧ first < id ∧ u.isThroughVia = true ∧
            u.start = via.start ∧ ¬ b.Stacked first u) ∨
          (id, via) ∈ before ∧ ¬ b.Stacked id via ∧ b.OnThroughPad via) := by
  simp only [List.mem_map, List.mem_flatMap, mem_viaChanges]
  constructor
  · rintro ⟨_, ⟨⟨first, u⟩, mem, ⟨through, alone⟩, ⟨⟨later, via⟩, above, rfl⟩ | ⟨onPad, rfl⟩⟩, rfl⟩
    · obtain ⟨lt, there, _, through', place⟩ := mem_stack.mp above
      exact ⟨via, there, through', .inl ⟨first, u, mem, lt, through, place, alone⟩⟩
    · exact ⟨u, listed first u mem, through, .inr ⟨mem, alone, onPad⟩⟩
  · rintro ⟨via, there, through, ⟨first, u, mem, lt, through', place, alone⟩ | ⟨mem, alone, onPad⟩⟩
    · exact ⟨_, ⟨(first, u), mem, ⟨through', alone⟩, .inl ⟨(id, via),
        mem_stack.mpr ⟨lt, there, through', through, place⟩, rfl⟩⟩, rfl⟩
    · exact ⟨_, ⟨(id, via), mem, ⟨through, alone⟩, .inr ⟨onPad, rfl⟩⟩, rfl⟩

/-- Over the whole sequence: the later vias of a point go as duplicates, the first one for a pad. -/
theorem mem_allViaChanges {change : Change} : change ∈ b.tracks.flatMap b.viaChanges ↔
    ∃ id via, b.track? id = some via ∧ via.isThroughVia = true ∧
      (b.Stacked id via ∧ change = .removed id via .duplicateVia ∨
        ¬ b.Stacked id via ∧ b.OnThroughPad via ∧ change = .removed id via .viaOnThroughPad) := by
  simp only [List.mem_flatMap, mem_viaChanges]
  constructor
  · rintro ⟨⟨first, u⟩, mem, ⟨through, alone⟩, ⟨⟨later, via⟩, above, rfl⟩ | ⟨onPad, rfl⟩⟩
    · obtain ⟨lt, there, _, through', place⟩ := mem_stack.mp above
      exact ⟨later, via, there, through',
        .inl ⟨⟨first, u, lt, mem_tracks.mp mem, through, place⟩, rfl⟩⟩
    · exact ⟨first, u, mem_tracks.mp mem, through, .inr ⟨alone, onPad, rfl⟩⟩
  · rintro ⟨id, via, there, through, ⟨stacked, rfl⟩ | ⟨alone, onPad, rfl⟩⟩
    · obtain ⟨first, u, lt, live, through', place, alone⟩ := stacked.exists_first
      exact ⟨(first, u), mem_tracks.mpr live, ⟨through', alone⟩,
        .inl ⟨(id, via), mem_stack.mpr ⟨lt, there, through', through, place⟩, rfl⟩⟩
    · exact ⟨(id, via), mem_tracks.mpr there, ⟨through, alone⟩, .inr ⟨onPad, rfl⟩⟩

theorem mem_ids_allViaChanges (b : Board) (id : Nat) :
    id ∈ (b.tracks.flatMap b.viaChanges).map Change.id ↔
      ∃ via, b.track? id = some via ∧ via.isThroughVia = true ∧
        (b.Stacked id via ∨ b.OnThroughPad via) := by
  simp only [List.mem_map, mem_allViaChanges]
  constructor
  · rintro ⟨_, ⟨id, via, there, through, ⟨stacked, rfl⟩ | ⟨_, onPad, rfl⟩⟩, rfl⟩
    · exact ⟨via, there, through, .inl stacked⟩
    · exact ⟨via, there, through, .inr onPad⟩
  · rintro ⟨via, there, through, why⟩
    by_cases stacked : b.Stacked id via
    · exact ⟨_, ⟨id, via, there, through, .inl ⟨stacked, rfl⟩⟩, rfl⟩
    · exact ⟨_, ⟨id, via, there, through, .inr ⟨stacked, why.resolve_left stacked, rfl⟩⟩, rfl⟩

/-! A via that is first at its point is still there when its turn comes, with all of its stack. -/

section Turn

variable (split : b.tracks = before ++ (id, t) :: after)
include split

theorem first_stays (alone : ¬ b.Stacked id t) :
    id ∉ (before.flatMap b.viaChanges).map Change.id := by
  rw [mem_ids_viaChanges fun n u mem => ((mem_before split).mp mem).2]
  rintro ⟨via, there, through, ⟨first, u, mem, lt, through', place, _⟩ | ⟨mem, _, _⟩⟩
  · cases (mem_tracks.mp (by rw [split]; simp) : b.track? id = some t).symm.trans there
    exact alone ⟨first, u, lt, ((mem_before split).mp mem).2, through', place⟩
  · exact Nat.lt_irrefl id ((mem_before split).mp mem).1

theorem stack_stays (alone : ¬ b.Stacked id t) {later : Nat × Track}
    (above : later ∈ b.stack id t) : later.1 ∉ (before.flatMap b.viaChanges).map Change.id := by
  obtain ⟨lt, there, _, _, place⟩ := mem_stack.mp above
  rw [mem_ids_viaChanges fun n u mem => ((mem_before split).mp mem).2]
  rintro ⟨via, there', _, ⟨first, u, mem, _, through', place', _⟩ | ⟨mem, _, _⟩⟩
  · cases there.symm.trans there'
    obtain ⟨below, live⟩ := (mem_before split).mp mem
    exact alone ⟨first, u, below, live, through', place'.trans place.symm⟩
  · exact Nat.lt_asymm lt ((mem_before split).mp mem).1

/-- When the turn of a later via comes, it is gone. -/
theorem stacked_gone (through : t.isThroughVia = true) (stacked : b.Stacked id t) :
    id ∈ (before.flatMap b.viaChanges).map Change.id := by
  obtain ⟨first, u, lt, there, through', place, alone⟩ := stacked.exists_first
  rw [mem_ids_viaChanges fun n u mem => ((mem_before split).mp mem).2]
  exact ⟨t, mem_tracks.mp (by rw [split]; simp), through,
    .inl ⟨first, u, (mem_before split).mpr ⟨lt, there⟩, lt, through', place, alone⟩⟩

end Turn

end Board

namespace Run

variable {σ : Type} {r q : Run Contacts σ} {id : Nat} {t : Track}
  {before after : List (Nat × Track)}

/-! ## The scan -/

theorem stack_eq (split : r.board.tracks = before ++ (id, t) :: after)
    (drops : r.Drops (before.flatMap r.board.viaChanges) q) (alone : ¬ r.board.Stacked id t) :
    q.board.stack id t = r.board.stack id t := by
  have ascending (b : Board) : ((b.stack id t).map (·.1)).Pairwise (· < ·) :=
    b.later_filter_ascending id _
  refine Board.eq_of_ascending (ascending _) (ascending _) fun n u => ?_
  rw [Board.mem_stack, drops.tracks]
  constructor
  · rintro ⟨lt, live, rest⟩
    split at live
    · cases live
    · exact Board.mem_stack.mpr ⟨lt, live, rest⟩
  · intro above
    rw [if_neg (Board.stack_stays split alone above)]
    exact Board.mem_stack.mp above

theorem drops_cleanVia (fresh : r.Fresh) (straight : r.board.StraightVias)
    (split : r.board.tracks = before ++ (id, t) :: after)
    (drops : r.Drops (before.flatMap r.board.viaChanges) q) :
    q.Drops (r.board.viaChanges (id, t)) (q.cleanVia id).1 := by
  have there : r.board.track? id = some t := Board.mem_tracks.mp (by rw [split]; simp)
  unfold Board.viaChanges
  by_cases first : t.isThroughVia = true ∧ ¬ r.board.Stacked id t
  · obtain ⟨through, alone⟩ := first
    have live : q.board.track? id = some t := by
      rw [drops.tracks, if_neg (Board.first_stays split alone), there]
    have ids : stackedOn q.board id t = (r.board.stack id t).map (·.1) := by
      rw [← stack_eq split drops alone]
      rfl
    have stacked : q.Drops
        ((r.board.stack id t).map fun later => .removed later.1 later.2 .duplicateVia)
        (((r.board.stack id t).map (·.1)).foldl (removeTrack .duplicateVia) q) := by
      refine drops_removals (fun later above => ?_) ?_
      · rw [drops.tracks, if_neg (Board.stack_stays split alone above)]
        exact (Board.mem_stack.mp above).2.1
      · exact (r.board.later_filter_ascending id _).imp Nat.ne_of_lt
    have faded := (fresh.faded.fading drops.fading).fading stacked.fading
    have kept : id ∉ (r.board.stack id t).map (·.1) := ids ▸ not_mem_stackedOn _ _ _
    unfold cleanVia
    rw [live]
    simp only
    rw [if_pos through, if_pos ⟨through, alone⟩, ids]
    generalize ((r.board.stack id t).map (·.1)).foldl (removeTrack .duplicateVia) q = s at *
    have still : s.board.track? id = some t := by
      rw [stacked.tracks, if_neg (by simpa [Change.id] using kept), live]
    have onPad : s.onThroughPad id = true ↔ r.board.OnThroughPad t := by
      rw [faded.onThroughPad still, stacked.pads, drops.pads]
      exact (Board.onThroughPad_iff (straight id t there) through).symm
    by_cases pad : r.board.OnThroughPad t
    · rw [if_pos (onPad.mpr pad), if_pos pad]
      exact stacked.trans (drops_removeTrack still .viaOnThroughPad)
    · rw [if_neg fun h => pad (onPad.mp h), if_neg pad, List.append_nil]
      exact stacked
  · rw [if_neg first]
    have idle : q.cleanVia id = (q, false) := by
      unfold cleanVia
      rw [drops.tracks]
      by_cases gone : id ∈ (before.flatMap r.board.viaChanges).map Change.id
      · rw [if_pos gone]
      · have not_through : ¬ t.isThroughVia = true := fun through =>
          gone (Board.stacked_gone split through
            (Classical.not_not.mp fun alone => first ⟨through, alone⟩))
        rw [if_neg gone, there]
        simp only
        rw [if_neg not_through]
    rw [idle]
    exact .refl q

theorem drops_cleanVias (h : r.Coherent) (straight : r.board.StraightVias) :
    r.refresh.Drops (r.board.tracks.flatMap r.board.viaChanges) r.cleanVias.1 := by
  have fresh := h.refresh_fresh
  have same := refresh_board r
  rw [← same] at straight ⊢
  refine forEach_scan (P := fun before => r.refresh.Drops (before.flatMap r.refresh.board.viaChanges))
    (fun before id t after q split drops => ?_) (.refl _)
  rw [List.flatMap_append, List.flatMap_singleton]
  exact drops.trans (drops_cleanVia fresh straight split drops)

end Run

namespace Board

theorem clean_one_via (b : Board) (o : Options) (on : o.cleanVias = true) :
    let c := (b.clean o).board
    ∀ id via, c.track? id = some via → via.isThroughVia = true →
      (∀ n u, c.track? n = some u → u.isThroughVia = true → u.start = via.start → n = id) ∧
        ¬ c.OnThroughPad via := by
  intro c id via live through
  have enabled : o.anyEnabled = true := by simp [Options.anyEnabled, on]
  have board : c = _ := b.clean_board o
  obtain ⟨straight, vias, _, _⟩ := Run.cleanup_tidy enabled (Run.start b Observer.silent ())
  obtain ⟨lone, clear⟩ := vias on
  rw [← board] at straight lone clear
  refine ⟨fun n u live' through' place => lone n id u via live' live ?_, ?_⟩
  · simp [Track.duplicateVias, through, through', place]
  · rw [onThroughPad_iff (straight id via live) through]
    rintro ⟨pad, mem, copper, meets⟩
    exact Bool.false_ne_true ((clear id via live through pad mem copper).symm.trans meets)

end Board

namespace Run

variable {σ : Type}

/-- The pass over vias takes away the later ones of the through vias at a point, as duplicates, and
the first one if a plated pad through all copper layers is there, whatever the order in which they
stand; each is logged once and nothing else changes. A whole cleaning with this pass on leaves no
point with two through vias, or with one on such a pad. -/
theorem cleanVias_exact (r : Run Contacts σ) (h : r.Coherent) (straight : r.board.StraightVias) :
    let b := r.board
    let s := r.cleanVias.1
    (∀ id t, s.board.track? id = some t ↔ b.track? id = some t ∧
      (t.isThroughVia = true → ¬ b.Stacked id t ∧ ¬ b.OnThroughPad t)) ∧
    s.board.pads = b.pads ∧ s.board.zones = b.zones ∧
    (∃ cs, s.log = r.log ++ cs ∧ (cs.filterMap Change.removedId?).Nodup ∧
      ∀ change, change ∈ cs ↔ ∃ id via, b.track? id = some via ∧ via.isThroughVia = true ∧
        (b.Stacked id via ∧ change = .removed id via .duplicateVia ∨
          ¬ b.Stacked id via ∧ b.OnThroughPad via ∧
            change = .removed id via .viaOnThroughPad)) ∧
    ∀ o : Options, o.cleanVias = true →
      let c := (b.clean o).board
      ∀ id via, c.track? id = some via → via.isThroughVia = true →
        (∀ n u, c.track? n = some u → u.isThroughVia = true → u.start = via.start → n = id) ∧
          ¬ c.OnThroughPad via := by
  intro b s
  have drops : r.refresh.Drops (b.tracks.flatMap b.viaChanges) s := drops_cleanVias h straight
  have same : r.refresh.board = b := refresh_board r
  have gone (id : Nat) : id ∈ (b.tracks.flatMap b.viaChanges).map Change.id ↔
      ∃ via, r.refresh.board.track? id = some via ∧ via.isThroughVia = true ∧
        (b.Stacked id via ∨ b.OnThroughPad via) := by
    rw [same]
    exact b.mem_ids_allViaChanges id
  refine ⟨fun id t => ?_, same ▸ drops.pads, same ▸ drops.zones,
    ⟨b.tracks.flatMap b.viaChanges, ?_, ?_, fun change => Board.mem_allViaChanges⟩, ?_⟩
  · rw [drops.track?_iff gone, same, not_and, not_or]
  · exact drops.log.trans (by rw [refresh_log])
  · obtain ⟨cs, logged, moves⟩ := (goes_cleanVias (o := {}) rfl h).moves
    have log : s.log = r.log ++ b.tracks.flatMap b.viaChanges :=
      drops.log.trans (by rw [refresh_log])
    rw [List.append_cancel_left (logged.symm.trans log)] at moves
    exact Change.removedIds_nodup moves.replayAll?
  · exact b.clean_one_via

/-- Three through vias of two nets on a pad through all layers, with a micro via between them, and
two more through vias at another point. -/
def piled : Board :=
  let through (uuid : String) (net : UInt32) (place : Point) : Track :=
    .ofVia uuid place 600 net (.through 300)
  { slots := [some (through "a" 1 ⟨0, 0⟩), some (through "b" 1 ⟨50, 0⟩),
      some (.ofVia "m" ⟨0, 0⟩ 300 1 ⟨.micro, .front, .back, 100⟩), some (through "c" 2 ⟨0, 0⟩),
      some (through "d" 2 ⟨50, 0⟩), some (through "e" 1 ⟨0, 0⟩)]
    pads := [⟨"U1", "1", ⟨0, 0⟩, 1, .allCopper, .throughHole⟩] }

/-- Of the vias on the pad only the micro via stays; the first through via is logged for the pad and
the others as its duplicates. At the other point the first via stays. -/
theorem cleanVias_exact_piled :
    let r : Run Contacts Unit := start piled .silent ()
    let s := r.cleanVias.1
    r.Coherent ∧ piled.StraightVias ∧
      s.board.ids = [1, 2] ∧
      (∀ id via, piled.track? id = some via → id ∈ [3, 4, 5] →
        .removed id via .duplicateVia ∈ s.log) ∧
      (∀ via, piled.track? 0 = some via → .removed 0 via .viaOnThroughPad ∈ s.log) := by
  intro r s
  have coherent : r.Coherent := (start_fresh piled .silent ()).coherent
  have straight : piled.StraightVias := Board.forall_track?_iff.mpr (by decide)
  obtain ⟨_, _, _, ⟨cs, log, _, logged⟩, _⟩ := cleanVias_exact r coherent straight
  rw [show s.log = cs from log]
  refine ⟨coherent, straight, by decide +kernel, fun id via there later => ?_, fun via there => ?_⟩
  · refine (logged _).mpr ⟨id, via, there, ?_⟩
    simp only [List.mem_cons, List.not_mem_nil, or_false] at later
    rcases later with rfl | rfl | rfl <;> cases there
    · exact ⟨rfl, .inl ⟨⟨0, _, by decide, rfl, rfl, rfl⟩, rfl⟩⟩
    · exact ⟨rfl, .inl ⟨⟨1, _, by decide, rfl, rfl, rfl⟩, rfl⟩⟩
    · exact ⟨rfl, .inl ⟨⟨0, _, by decide, rfl, rfl, rfl⟩, rfl⟩⟩
  · cases there
    refine (logged _).mpr ⟨0, _, rfl, rfl, .inr ⟨?_, ?_, rfl⟩⟩
    · rintro ⟨first, _, before, _⟩
      exact Nat.not_lt_zero first before
    · exact ⟨_, List.mem_cons_self, by decide, by decide, rfl⟩

end Run
end CopperTidy
