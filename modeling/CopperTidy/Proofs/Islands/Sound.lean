import CopperTidy.Proofs.Islands.Removal

/-! # What keeps the copper of a net together

`Board.Sound` lists what the passes take for granted when they take copper of a net away: vias stand
straight and on copper layers, vias and pads that stand in for a via are of its net, a via that
counts as a copy spans no more than the original, and no track end is the only link of two pads of
its net. On a sound board a move leaves whatever is left of an island in one piece, up to vias that
have lost their only neighbour; these dangle.
-/

namespace CopperTidy
set_option autoImplicit false

/-! ## Layers as bits -/

theorem LayerSet.testBit_single {l : Layer} {k : Nat} :
    (single l).mask.testBit k = true ↔ l.number.toNat = k := by
  simp only [single, Nat.one_shiftLeft, Nat.testBit_two_pow, decide_eq_true_eq]

namespace Track

theorem layers_of_not_isVia {t : Track} (h : t.isVia = false) : t.layers = .single t.layer := by
  cases shape : t.shape with
  | trace | arc => simp [layers, shape]
  | via => simp [isVia, shape] at h

theorem testBit_layers_of_not_isVia {t : Track} (h : t.isVia = false) {k : Nat} :
    t.layers.mask.testBit k = true ↔ t.layer.number.toNat = k := by
  rw [layers_of_not_isVia h, LayerSet.testBit_single]

/-- A through via conducts on all thirty-two copper layers. -/
theorem testBit_layers_of_isThroughVia {t : Track} (h : t.isThroughVia = true) {k : Nat} :
    t.layers.mask.testBit k = true ↔ k < 32 := by
  unfold isThroughVia at h
  split at h
  · next span eq =>
    have through : span.viaType = .through := by simpa using h
    have layers : t.layers = .span .front .back := by
      simp only [Track.layers, Track.layerPair, eq, through, if_true]
    have mask : t.layers.mask = 2 ^ 32 - 1 := by
      rw [layers]
      rfl
    rw [mask, Nat.testBit_two_pow_sub_one]
    simp
  · cases h

end Track

theorem Pad.testBit_of_onAllCopper {pad : Pad} (h : pad.onAllCopper = true) {k : Nat}
    (copper : k < 32) : pad.layers.mask.testBit k = true := by
  simp only [onAllCopper, LayerSet.coversAllCopper, LayerSet.inter, LayerSet.allCopper, beq_iff_eq,
    LayerSet.mk.injEq] at h
  have bit : (pad.layers.mask &&& 4294967295).testBit k = (4294967295 : Nat).testBit k := by
    rw [h]
  have all : (4294967295 : Nat) = 2 ^ 32 - 1 := rfl
  rw [all, Nat.testBit_and, Nat.testBit_two_pow_sub_one] at bit
  simpa [copper] using bit

namespace Board

variable {b c : Board} {o : Options} {net : UInt32} {x y : Conductor}

/-! ## Sound boards -/

structure Sound (b : Board) (o : Options) (net : UInt32) : Prop where
  straight : ∀ id t, b.track? id = some t → t.net = net → Run.isMalformedVia t = false
  /-- No end of a track lies on two pads of its net. -/
  onePad : ∀ id t, b.track? id = some t → t.net = net → ∀ p, t.hasEndAt p = true →
    ∀ m n q r, b.pad? m = some q → b.pad? n = some r → q.net = net → r.net = net →
      q.hits p t.layers = true → r.hits p t.layers = true → m = n
  /-- The first of stacked through vias is of the net of the others. -/
  stacked : o.cleanVias = true → ∀ i j s t, i < j → b.track? i = some s → b.track? j = some t →
    t.net = net → s.duplicateVias t = true → s.net = net
  /-- A through via on a pad through all layers is on one of its own net. -/
  onPad : o.cleanVias = true → ∀ id t, b.track? id = some t → t.net = net →
    t.isThroughVia = true → ∀ pad ∈ b.pads, pad.onAllCopper = true → pad.meets t = true →
      ∃ own ∈ b.pads, own.net = net ∧ own.onAllCopper = true ∧ own.meets t = true
  /-- A later via with the top layer and the place of an earlier one spans no more. -/
  copies : o.mergeSegments = true → ∀ i j s t, i < j → b.track? i = some s →
    b.track? j = some t → s.net = net → t.net = net → t.isVia = true → s.duplicates t = true →
      ∀ k, t.layers.mask.testBit k = true → s.layers.mask.testBit k = true
  copper : o.deleteDangling = true → ∀ id t, b.track? id = some t → t.net = net →
    t.isVia = true → ∀ k, t.layers.mask.testBit k = true → k < 32

namespace Sound

theorem weaken {p : Options} (h : b.Sound o net) (vias : p.cleanVias = true → o.cleanVias = true)
    (merges : p.mergeSegments = true → o.mergeSegments = true)
    (loose : p.deleteDangling = true → o.deleteDangling = true) : b.Sound p net :=
  ⟨h.straight, h.onePad, fun on => h.stacked (vias on), fun on => h.onPad (vias on),
    fun on => h.copies (merges on), fun on => h.copper (loose on)⟩

/-- Vias of a sound net are what they were. -/
theorem via_was {p : Options} {cs : List Change} (h : b.Sound o net) (move : Move p b cs c)
    {id : Nat} {t : Track} (live : c.track? id = some t) (inNet : t.net = net)
    (via : t.isVia = true) : b.track? id = some t := by
  obtain ⟨t', there, same | ⟨bad, rfl⟩⟩ := (move.origin live).via_was via
  · rw [same]
    exact there
  · rw [h.straight id t' there inNet] at bad
    cases bad

theorem move {p : Options} {cs : List Change} (h : b.Sound o net) (move : Move p b cs c) :
    c.Sound o net := by
  have pads : c.pads = b.pads := move.pads_zones.1
  constructor
  · intro id t live inNet
    by_cases via : t.isVia = true
    · exact h.straight id t (h.via_was move live inNet via) inNet
    · simp [Run.isMalformedVia, via]
  · intro id t live inNet p ends m n q r hq hr
    obtain ⟨id', t', there, ends', net', layers, _⟩ := (move.origin live).end_was ends
    rw [pad?, pads] at hq hr
    rw [← layers]
    exact h.onePad id' t' there (net'.trans inNet) p ends' m n q r hq hr
  · intro on i j s t lt hs ht inNet same
    simp only [Track.duplicateVias, Bool.and_eq_true] at same
    obtain ⟨s', there, was⟩ := (move.origin hs).via_was (isThroughVia_isVia same.1.1)
    have kept := h.via_was move ht inNet (isThroughVia_isVia same.1.2)
    have facts : s'.net = s.net ∧ s'.start = s.start ∧ s'.isThroughVia = s.isThroughVia := by
      rcases was with rfl | ⟨_, rfl⟩ <;> exact ⟨rfl, rfl, rfl⟩
    rw [← facts.1]
    refine h.stacked on i j s' t lt there kept inNet ?_
    simp only [Track.duplicateVias, facts.2.1, facts.2.2, Bool.and_eq_true]
    exact same
  · intro on id t live inNet through
    rw [pads]
    exact h.onPad on id t (h.via_was move live inNet (isThroughVia_isVia through)) inNet through
  · intro on i j s t lt hs ht inNetS inNet via same
    have viaS : s.isVia = true := by
      simp only [Track.duplicates, Bool.and_eq_true, beq_iff_eq] at same
      rw [same.1.1.2, via]
    exact h.copies on i j s t lt (h.via_was move hs inNetS viaS) (h.via_was move ht inNet via)
      inNetS inNet via same
  · intro on id t live inNet via
    exact h.copper on id t (h.via_was move live inNet via) inNet via

theorem moves {p : Options} {cs : List Change} (h : b.Sound o net) (moves : Moves p b cs c) :
    c.Sound o net := by
  induction moves with
  | nil => exact h
  | snoc _ last ih => exact ih.move last

/-- Pads of the net at an end of a track of the net are one pad. -/
theorem pad_eq (h : b.Sound o net) {id : Nat} {t : Track} (there : b.track? id = some t)
    (inNet : t.net = net) {p : Point} {k : Nat} (ends : t.hasEndAt p = true)
    (layer : t.layers.mask.testBit k = true) {m n : Nat} (hm : b.Reaches net (.pad m) p k)
    (hn : b.Reaches net (.pad n) p k) : m = n := by
  obtain ⟨q, listed, qNet, reachesQ⟩ := reaches_pad.mp hm
  obtain ⟨r, listed', rNet, reachesR⟩ := reaches_pad.mp hn
  exact h.onePad id t there inNet p ends m n q r listed listed' qNet rNet
    (Pad.hits_iff.mpr ⟨k, reachesQ, layer⟩) (Pad.hits_iff.mpr ⟨k, reachesR, layer⟩)

end Sound
end Board
end CopperTidy
