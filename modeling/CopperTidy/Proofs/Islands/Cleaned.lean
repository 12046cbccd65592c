import CopperTidy.Proofs.Islands.Count
import CopperTidy.Proofs.Islands.Kept
import CopperTidy.Proofs.Tidy

/-! # Islands of a cleaned board

The islands of a net after a cleaning are pieces of those before it. Unless shorts are removed, each
island of a sound net is left in one piece, or goes as a whole: what the dangling pass strands, it
takes with it.
-/

namespace CopperTidy
set_option autoImplicit false

namespace Board

variable {b c : Board} {o : Options} {net : UInt32} {x y : Conductor}

/-! ## Moves -/

theorem ne_of_live {id : Nat} (h : ((b.remove id).item? net x).isSome = true) : x ≠ .track id := by
  rintro rfl
  rw [item?, track?_remove, if_pos rfl] at h
  cases h

theorem sharesLayer_of_copy {s t : Track} (layer : s.layer = t.layer) (first : s.isVia = false)
    (second : t.isVia = false) : s.layers = t.layers := by
  rw [Track.layers_of_not_isVia first, Track.layers_of_not_isVia second, layer]

/-- A track that leaves leaves its links behind, or strands a via. -/
theorem Leaves.kept {id : Nat} {t : Track} {reason : Reason} (why : Leaves o b id t reason)
    (there : b.track? id = some t) (sound : b.Sound o net) (shorts : o.removeMisconnected = false)
    (hx : x ≠ .track id) (hy : y ≠ .track id) (linked : b.Linked net x y) :
    (b.remove id).Linked net x y ∨
      o.deleteDangling = true ∧ (Stranded (b.remove id) x ∨ Stranded (b.remove id) y) := by
  by_cases inNet : t.net = net
  · cases why with
    | null on null => exact .inl (kept_of_null sound there inNet null hx hy linked)
    | @stacked first s on thereS earlier same =>
      have facts := same
      simp only [Track.duplicateVias, Bool.and_eq_true, beq_iff_eq] at facts
      obtain ⟨⟨throughS, through⟩, place⟩ := facts
      have inNetS := sound.stacked on first id s t earlier thereS there inNet same
      refine .inl (kept_of_track there thereS inNetS (Nat.ne_of_lt earlier) (fun p ends => ?_)
        (fun k layer => ?_) hx hy linked)
      · have straight := sound.straight id t there inNet
        rw [Track.hasEndAt_via straight (isThroughVia_isVia through)] at ends
        exact Track.hasEndAt_iff.mpr (.inl (place.trans ends))
      · rw [Track.testBit_layers_of_isThroughVia through] at layer
        exact (Track.testBit_layers_of_isThroughVia throughS).mpr layer
    | onPad on through mem copper meets =>
      obtain ⟨own, memOwn, ownNet, ownCopper, ownMeets⟩ :=
        sound.onPad on id t there inNet through _ mem copper meets
      exact .inl (kept_of_pad sound there inNet through memOwn ownNet ownCopper ownMeets hx hy linked)
    | @copy first s on thereS earlier net same =>
      have facts := same
      simp only [Track.duplicates, Bool.and_eq_true, Bool.not_eq_true', beq_iff_eq] at facts
      obtain ⟨⟨⟨⟨_, _⟩, kinds⟩, layer⟩, ends⟩ := facts
      refine .inl (kept_of_track there thereS (net.trans inNet) (Nat.ne_of_lt earlier)
        (fun p => hasEndAt_of_sameEnds ends) (fun k bit => ?_) hx hy linked)
      by_cases via : t.isVia = true
      · exact sound.copies on first id s t earlier thereS there (net.trans inNet) inNet via same k bit
      · have not_via : t.isVia = false := Bool.eq_false_iff.mpr via
        rw [sharesLayer_of_copy layer (kinds.trans not_via) not_via]
        exact bit
    | @overlapped first side s on meet same =>
      refine .inl (kept_of_track there meet.there (meet.net.symm.trans inNet) meet.ne.symm
        (fun p => hasEndAt_of_sameEnds same) (fun k bit => ?_) hx hy linked)
      rw [← meet.layers]
      exact bit
    | short on =>
      rw [shorts] at on
      cases on
    | loose on straight since loose =>
      rcases kept_of_loose sound on there inNet straight since loose hx hy linked with still | left_over
      · exact .inl still
      · exact .inr ⟨on, left_over⟩
  · exact .inl (linked_remove_foreign there inNet linked)

theorem Move.kept {cs : List Change} (move : Move o b cs c) (sound : b.Sound o net)
    (shorts : o.removeMisconnected = false) (hx : (c.item? net x).isSome = true)
    (hy : (c.item? net y).isSome = true) (linked : b.Linked net x y) :
    c.Linked net x y ∨ o.deleteDangling = true ∧ (Stranded c x ∨ Stranded c y) := by
  cases move with
  | @mend id t there bad =>
    refine .inl (linked_of_item?_eq (fun z => ?_) linked)
    have foreign : t.net ≠ net := by
      intro inNet
      rw [sound.straight id t there inNet] at bad
      cases bad
    cases z with
    | pad n => rw [item?, item?, pad?, pad?, modify_pads]
    | track n =>
      rw [item?, item?, track?_modify]
      split
      · next e =>
        subst e
        simp [there, Option.filter_some, foreign]
      · rfl
  | leave there why =>
    exact why.kept there sound shorts (ne_of_live hx) (ne_of_live hy) linked
  | merge on meet ends line free =>
    exact .inl (kept_of_merge meet free (ne_of_live hx) (ne_of_live hy) linked)

/-! ## Runs of moves -/

theorem Moves.kept {cs : List Change} (moves : Moves o b cs c) (sound : b.Sound o net)
    (shorts : o.removeMisconnected = false) (hx : (c.item? net x).isSome = true)
    (hy : (c.item? net y).isSome = true) (linked : b.Linked net x y) :
    c.Linked net x y ∨ o.deleteDangling = true ∧ (Stranded c x ∨ Stranded c y) := by
  induction moves with
  | nil => exact .inl linked
  | snoc before last ih =>
    have soundMid := sound.moves before
    rcases ih (last.was_there hx) (last.was_there hy) with still | ⟨on, left_over⟩
    · exact last.kept soundMid shorts hx hy still
    · refine .inr ⟨on, ?_⟩
      rcases left_over with h | h
      · exact .inl (h.move last soundMid.straight hx)
      · exact .inr (h.move last soundMid.straight hy)

end Board

/-! ## A whole cleaning -/

namespace Run

variable {σ : Type} {o : Options} {r : Run Contacts σ}

/-- Before the dangling pass and after it, nothing is removed for dangling. -/
def steady (o : Options) : Options := { o with deleteDangling := false }

theorem goes_steady_afterShorts (h : r.Coherent) : Goes (steady o) r (afterShorts o r) := by
  have vias : Goes (steady o) r (afterVias o r) := (goes_afterEnds h).trans (goes_afterVias r id)
  exact (vias.trans (goes_afterSegments r id id)).trans (goes_afterShorts r id)

theorem afterDangling_off (off : o.deleteDangling = false) (r : Run Contacts σ) :
    afterDangling o r = afterShorts o r := by
  unfold afterDangling when
  rw [off]
  rfl

/-- The dangling pass goes on until nothing dangles; after that only segments are cleaned. -/
theorem afterDangling_on {p : Options} (on : o.deleteDangling = true)
    (merges : o.mergeSegments = true → p.mergeSegments = true) (r : Run Contacts σ) :
    ∃ s, Goes o (afterShorts o r) s ∧ (∀ id, dangles Scan.mk s.board id = false) ∧
      Goes p s (afterDangling o r) := by
  have coherent := coherent_afterShorts o r
  have fresh := coherent.refresh_fresh.coherent
  have straight : (afterShorts o r).refresh.board.StraightVias :=
    (afterShorts o r).refresh_board ▸ straight_afterShorts o r
  have goes : Goes o (afterShorts o r) (afterShorts o r).refresh.deleteDangling.1 :=
    (Goes.refresh coherent).trans (goes_danglingRounds on _ fresh straight)
  refine ⟨(afterShorts o r).refresh.deleteDangling.1, goes,
    danglingRounds_connected _ fresh (Nat.le_refl _), ?_⟩
  unfold afterDangling when
  rw [on, if_pos rfl]
  unfold danglingPass
  cases h : (afterShorts o r).refresh.deleteDangling with
  | mk s changed =>
    rw [h] at goes
    dsimp only
    split
    · next again =>
      have again := (Bool.and_eq_true_iff.mp again).2
      dsimp only
      exact goes_cleanSegments (merges again) goes.coherent
    · exact .refl goes.coherent

end Run

namespace Board

variable {b : Board} {o : Options} {net : UInt32} {x y : Conductor}

theorem clean_off (off : o.anyEnabled = false) (b : Board) : (b.clean o).board = b := by
  rw [clean_board, Run.cleanup, off]
  rfl

/-- What is left of an island of a sound net hangs together. -/
theorem clean_kept (sound : b.Sound o net) (shorts : o.removeMisconnected = false)
    (hx : ((b.clean o).board.item? net x).isSome = true)
    (hy : ((b.clean o).board.item? net y).isSome = true) (linked : b.Linked net x y) :
    (b.clean o).board.Linked net x y := by
  by_cases on : o.anyEnabled = true
  · have soundSteady : b.Sound (Run.steady o) net := sound.weaken id id nofun
    have coherent := (Run.start_fresh b Observer.silent ()).coherent
    rw [clean_board, Run.cleanup_fst on] at hx hy ⊢
    generalize hr : (Run.start b Observer.silent () : Run Contacts Unit) = r at *
    have board : r.board = b := hr ▸ rfl
    obtain ⟨_, _, first⟩ := (Run.goes_steady_afterShorts (o := o) coherent).moves
    rw [board] at first
    have upToShorts {x y : Conductor} (hx : ((Run.afterShorts o r).board.item? net x).isSome = true)
        (hy : ((Run.afterShorts o r).board.item? net y).isSome = true) (h : b.Linked net x y) :
        (Run.afterShorts o r).board.Linked net x y := by
      rcases first.kept soundSteady shorts hx hy h with still | ⟨on, _⟩
      · exact still
      · cases on
    by_cases loose : o.deleteDangling = true
    · obtain ⟨s, goes, connected, rest⟩ := Run.afterDangling_on (p := Run.steady o) loose
        (fun merges => merges) r
      obtain ⟨_, _, second⟩ := goes.moves
      obtain ⟨_, _, third⟩ := rest.moves
      have soundShorts := sound.moves first
      have still := upToShorts (second.was_there (third.was_there hx))
        (second.was_there (third.was_there hy)) linked
      have none_stranded (z : Conductor) : ¬ Stranded s.board z := by
        intro stranded
        obtain ⟨v, _, rfl, _⟩ := id stranded
        have dangling := dangles_of_stranded stranded
        rw [connected v] at dangling
        cases dangling
      rcases second.kept soundShorts shorts (third.was_there hx) (third.was_there hy) still with
        still | ⟨_, left_over | left_over⟩
      · have soundS := (soundShorts.moves second).weaken (p := Run.steady o) id id nofun
        rcases third.kept soundS shorts hx hy still with still | ⟨on, _⟩
        · exact still
        · cases on
      · exact absurd left_over (none_stranded x)
      · exact absurd left_over (none_stranded y)
    · rw [Run.afterDangling_off (Bool.eq_false_iff.mpr loose)] at hx hy ⊢
      exact upToShorts hx hy linked
  · rw [clean_off (Bool.eq_false_iff.mpr on)]
    exact linked

/-- The islands of a net do not become more just if at most as many pieces are cut off as islands
vanish. On a sound net, unless shorts are removed, nothing is cut off. -/
theorem clean_islands (b : Board) (o : Options) (net : UInt32) :
    let c := (b.clean o).board
    (c.islandCount net ≤ b.islandCount net ↔ net = 0 ∨ b.cutOff c net ≤ b.vanished c net) ∧
      (o.removeMisconnected = false → b.Sound o net → b.cutOff c net = 0) := by
  refine ⟨islandCount_le_iff fun x y => (b.clean_moves o).refines, fun shorts sound => ?_⟩
  exact cutOff_eq_zero fun x y hx hy => clean_kept sound shorts hx hy

/-- A trace from a pad to two vias of its net that stand in one place. -/
def twinVias : Board :=
  { slots := [some ⟨"a", ⟨0, 0⟩, ⟨10, 0⟩, 200, .front, 1, .trace⟩,
      some (.ofVia "v1" ⟨10, 0⟩ 600 1 (.through 300)), some (.ofVia "v2" ⟨10, 0⟩ 600 1 (.through 300))]
    pads := [⟨"U1", "1", ⟨0, 0⟩, 1, .single .front, .smd⟩] }

theorem twinVias_sound (o : Options) : twinVias.Sound o 1 := by
  have net : ∀ id t, twinVias.track? id = some t → t.net = 1 :=
    forall_track?_iff.mpr (by decide)
  have straight : ∀ id t, twinVias.track? id = some t → Run.isMalformedVia t = false :=
    forall_track?_iff.mpr (by decide)
  have through : ∀ id t, twinVias.track? id = some t → t.isVia = true → t.isThroughVia = true :=
    forall_track?_iff.mpr (by decide)
  have only (m : Nat) (q : Pad) (listed : twinVias.pad? m = some q) : m = 0 := by
    have := (List.getElem?_eq_some_iff.mp listed).1
    simp only [twinVias, List.length_cons, List.length_nil] at this
    omega
  constructor
  · exact fun id t there _ => straight id t there
  · intro _ _ _ _ _ _ m n q r hq hr _ _ _ _
    rw [only m q hq, only n r hr]
  · exact fun _ i j s t _ hs _ _ _ => net i s hs
  · intro _ _ _ _ _ _ pad mem copper
    rw [List.mem_singleton.mp mem] at copper
    exact absurd copper (by decide)
  · intro _ i j s t _ hs ht _ _ via same k layer
    simp only [Track.duplicates, Bool.and_eq_true, beq_iff_eq] at same
    have viaS : s.isVia = true := same.1.1.2.trans via
    rw [Track.testBit_layers_of_isThroughVia (through j t ht via)] at layer
    exact (Track.testBit_layers_of_isThroughVia (through i s hs viaS)).mpr layer
  · intro _ id t there _ via k layer
    exact (Track.testBit_layers_of_isThroughVia (through id t there via)).mp layer

theorem clean_islands_twinVias :
    let c := (twinVias.clean { removeMisconnected := false }).board
    twinVias.cutOff c 1 = 0 ∧ c.islandCount 1 ≤ twinVias.islandCount 1 := by
  obtain ⟨exact_count, whole⟩ := clean_islands twinVias { removeMisconnected := false } 1
  have none_cut := whole rfl (twinVias_sound _)
  exact ⟨none_cut, exact_count.mpr (.inr (none_cut ▸ Nat.zero_le _))⟩

/-- Two traces of net 2 between pads, joined by a via that stands on a via of net 1. -/
def foreignVia : Board :=
  { slots := [some ⟨"a", ⟨0, 0⟩, ⟨0, 10⟩, 200, .front, 2, .trace⟩,
      some ⟨"b", ⟨0, 0⟩, ⟨10, 0⟩, 200, .back, 2, .trace⟩,
      some (.ofVia "v1" ⟨0, 0⟩ 600 1 (.through 300)), some (.ofVia "v2" ⟨0, 0⟩ 600 2 (.through 300))]
    pads := [⟨"U1", "1", ⟨0, 10⟩, 2, .single .front, .smd⟩,
      ⟨"U1", "2", ⟨10, 0⟩, 2, .single .back, .smd⟩] }

/-- The later via goes, and takes the connection of its net with it. -/
theorem clean_islands_foreignVia :
    ¬ (foreignVia.clean { removeMisconnected := false }).board.islandCount 2 ≤
      foreignVia.islandCount 2 := by
  decide +kernel

end Board
end CopperTidy
