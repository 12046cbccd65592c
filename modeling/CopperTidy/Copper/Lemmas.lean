import CopperTidy.Board.Islands

/-! # Laws of copper

Ends, layers and contacts of tracks and pads, as statements about points and bits.
-/

namespace CopperTidy
set_option autoImplicit false

theorem Side.eq_opposite_of_ne {s t : Side} (h : s ≠ t) : s = t.opposite := by
  cases s <;> cases t
  · exact absurd rfl h
  · rfl
  · rfl
  · exact absurd rfl h

namespace Track

theorem hasEndAt_iff {t : Track} {p : Point} :
    t.hasEndAt p = true ↔ t.start = p ∨ t.stop = p := by
  simp [hasEndAt]

theorem touches_iff {t u : Track} :
    t.touches u = true ↔
      ∃ p, t.hasEndAt p = true ∧ u.hasEndAt p = true ∧ t.sharesLayer u = true := by
  simp only [touches, Bool.and_eq_true, Bool.or_eq_true, hasEndAt_iff]
  constructor
  · rintro ⟨h | h, layer⟩
    · exact ⟨t.start, .inl rfl, h, layer⟩
    · exact ⟨t.stop, .inr rfl, h, layer⟩
  · rintro ⟨p, rfl | rfl, h, layer⟩
    · exact ⟨.inl h, layer⟩
    · exact ⟨.inr h, layer⟩

@[simp] theorem net_setPoint (t : Track) (p : Point) (side : Side) :
    (t.setPoint p side).net = t.net := by
  cases side <;> rfl

@[simp] theorem shape_setPoint (t : Track) (p : Point) (side : Side) :
    (t.setPoint p side).shape = t.shape := by
  cases side <;> rfl

@[simp] theorem layer_setPoint (t : Track) (p : Point) (side : Side) :
    (t.setPoint p side).layer = t.layer := by
  cases side <;> rfl

@[simp] theorem layers_setPoint (t : Track) (p : Point) (side : Side) :
    (t.setPoint p side).layers = t.layers := by
  cases side <;> rfl

theorem layers_of_isTrace {t : Track} (h : t.isTrace = true) : t.layers = .single t.layer := by
  unfold isTrace at h
  unfold layers
  split at h
  · next eq => rw [eq]
  · cases h

theorem isTrace_setPoint (t : Track) (p : Point) (side : Side) :
    (t.setPoint p side).isTrace = t.isTrace := by
  rw [isTrace, shape_setPoint, isTrace]

theorem isTrace_of_isVia {t : Track} (h : t.isVia = true) : t.isTrace = false := by
  cases shape : t.shape with
  | trace | arc => simp [isVia, shape] at h
  | via => simp [isTrace, shape]

theorem isVia_of_isTrace {t : Track} (h : t.isTrace = true) : t.isVia = false := by
  cases via : t.isVia with
  | false => rfl
  | true =>
    rw [isTrace_of_isVia via] at h
    cases h

theorem isTrace_of_isArc {t : Track} (h : t.isArc = true) : t.isTrace = false := by
  cases shape : t.shape with
  | arc => simp [isTrace, shape]
  | trace | via => simp [isArc, shape] at h

theorem isVia_of_isArc {t : Track} (h : t.isArc = true) : t.isVia = false := by
  cases shape : t.shape with
  | arc => simp [isVia, shape]
  | trace | via => simp [isArc, shape] at h

theorem layerPair_of_not_isVia {t : Track} (h : t.isVia = false) :
    t.layerPair = (t.layer, t.layer) := by
  cases shape : t.shape with
  | trace | arc => simp [layerPair, shape]
  | via => simp [isVia, shape] at h

theorem layerPair_of_isTrace {t : Track} (h : t.isTrace = true) :
    t.layerPair = (t.layer, t.layer) := layerPair_of_not_isVia (isVia_of_isTrace h)

/-- A through via passes all layers, whatever its span says. -/
theorem layerPair_of_isThroughVia {t : Track} (h : t.isThroughVia = true) :
    t.layerPair = (.front, .back) := by
  cases shape : t.shape with
  | trace | arc => simp [isThroughVia, shape] at h
  | via span =>
    have through : span.viaType = .through := by simpa [isThroughVia, shape] using h
    simp [layerPair, shape, through]

theorem point_setPoint (t : Track) (p : Point) (side : Side) :
    (t.setPoint p side).point side = p := by
  cases side <;> rfl

theorem point_opposite_setPoint (t : Track) (p : Point) (side : Side) :
    (t.setPoint p side).point side.opposite = t.point side.opposite := by
  cases side <;> rfl

theorem hasEndAt_iff_side {t : Track} {p : Point} (side : Side) :
    t.hasEndAt p = true ↔ t.point side = p ∨ t.point side.opposite = p := by
  rw [hasEndAt_iff]
  cases side with
  | start => exact Iff.rfl
  | stop => exact or_comm

end Track

/-- Two sets share a layer just if their masks share a bit. -/
theorem LayerSet.intersects_iff {s t : LayerSet} :
    s.intersects t = true ↔ ∃ n, s.mask.testBit n = true ∧ t.mask.testBit n = true := by
  simp only [intersects, inter, isEmpty, Bool.not_eq_true', beq_eq_false_iff_ne]
  constructor
  · intro ne
    obtain ⟨n, bit⟩ := Nat.exists_testBit_of_ne_zero ne
    rw [Nat.testBit_and, Bool.and_eq_true] at bit
    exact ⟨n, bit⟩
  · rintro ⟨n, first, second⟩ e
    have bit : (s.mask &&& t.mask).testBit n = true := by
      rw [Nat.testBit_and, first, second]
      rfl
    rw [e, Nat.zero_testBit] at bit
    cases bit

/-- The top and the bottom layer of a track are layers on which it conducts. -/
theorem Track.contains_layerPair (t : Track) :
    t.layers.contains t.layerPair.1 = true ∧ t.layers.contains t.layerPair.2 = true := by
  cases shape : t.shape with
  | trace | arc => simp [layers, layerPair, shape, LayerSet.contains_single]
  | via =>
    simp only [layers, shape, LayerSet.contains_span, decide_eq_true_eq]
    omega

/-- A zone with copper between two copper layers has it between the outer ones. -/
theorem Zone.covers_all {z : Zone} {p : Point} {top bottom : Layer} (lowTop : top.number.toNat < 32)
    (lowBottom : bottom.number.toNat < 32) (h : z.covers p top bottom = true) :
    z.covers p .front .back = true := by
  obtain ⟨fill, mem, covers⟩ := List.any_eq_true.mp h
  refine List.any_eq_true.mpr ⟨fill, mem, ?_⟩
  rw [Bool.and_eq_true, LayerSet.contains_span, decide_eq_true_eq] at covers ⊢
  have front : Layer.front.number.toNat = 0 := rfl
  have back : Layer.back.number.toNat = 31 := rfl
  exact ⟨by omega, covers.2⟩

theorem Layer.eq_of_number {l k : Layer} (h : l.number.toNat = k.number.toNat) : l = k := by
  cases l
  cases k
  rw [Layer.mk.injEq]
  exact UInt8.toNat_inj.mp h

theorem LayerSet.intersects_single {l k : Layer} :
    (single l).intersects (single k) = true ↔ l = k := by
  simp only [intersects_iff, single, Nat.one_shiftLeft, Nat.testBit_two_pow, decide_eq_true_eq]
  constructor
  · rintro ⟨n, first, second⟩
    exact Layer.eq_of_number (first.trans second.symm)
  · rintro rfl
    exact ⟨_, rfl, rfl⟩

theorem LayerSet.intersects_of_contains {s : LayerSet} {l : Layer} (h : s.contains l = true) :
    s.intersects (single l) = true := by
  refine intersects_iff.mpr ⟨l.number.toNat, h, ?_⟩
  simp [single, Nat.one_shiftLeft]

theorem Pad.meets_iff {pad : Pad} {t : Track} :
    pad.meets t = true ↔ ∃ p, t.hasEndAt p = true ∧ pad.hits p t.layers = true := by
  simp only [meets, Bool.or_eq_true, Track.hasEndAt_iff]
  constructor
  · rintro (h | h)
    · exact ⟨t.start, .inl rfl, h⟩
    · exact ⟨t.stop, .inr rfl, h⟩
  · rintro ⟨p, rfl | rfl, h⟩
    · exact .inl h
    · exact .inr h

end CopperTidy
