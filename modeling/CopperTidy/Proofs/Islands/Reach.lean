import CopperTidy.Proofs.Islands.Links
import CopperTidy.Proofs.Origin

/-! # Moves link nothing new

Two names are joined when their items reach one point on one layer, and one of them is a track. In
these terms a move is easy to follow: whatever a track reaches after it, the same track reached
before, or the one that it was merged with.
-/

namespace CopperTidy
set_option autoImplicit false

/-- The item ends at a point and conducts on a layer. -/
def CopperItem.Reaches : CopperItem → Point → Nat → Prop
  | .track _ t, p, k => t.hasEndAt p = true ∧ t.layers.mask.testBit k = true
  | .pad _ q, p, k => q.kind ≠ .nonPlated ∧ q.position = p ∧ q.layers.mask.testBit k = true

def CopperItem.isPad : CopperItem → Bool
  | .track .. => false
  | .pad .. => true

def Conductor.isPad : Conductor → Bool
  | .track _ => false
  | .pad _ => true

theorem Pad.hits_iff {pad : Pad} {p : Point} {layers : LayerSet} :
    pad.hits p layers = true ↔
      ∃ k, (pad.kind ≠ .nonPlated ∧ pad.position = p ∧ pad.layers.mask.testBit k = true) ∧
        layers.mask.testBit k = true := by
  simp only [hits, Bool.and_eq_true, bne_iff_ne, beq_iff_eq, LayerSet.intersects_iff]
  constructor
  · rintro ⟨⟨plated, place⟩, k, first, second⟩
    exact ⟨k, ⟨plated, place, first⟩, second⟩
  · rintro ⟨k, ⟨plated, place, first⟩, second⟩
    exact ⟨⟨plated, place⟩, k, first, second⟩

namespace CopperItem

theorem joined_track_pad {id n : Nat} {t : Track} {q : Pad} :
    (track id t).joined (pad n q) = true ↔
      ∃ p k, (track id t).Reaches p k ∧ (pad n q).Reaches p k := by
  rw [joined, Pad.meets_iff]
  constructor
  · rintro ⟨p, there, hits⟩
    obtain ⟨k, reaches, layer⟩ := Pad.hits_iff.mp hits
    exact ⟨p, k, ⟨there, layer⟩, reaches⟩
  · rintro ⟨p, k, ⟨there, layer⟩, reaches⟩
    exact ⟨p, there, Pad.hits_iff.mpr ⟨k, reaches, layer⟩⟩

theorem joined_iff {i j : CopperItem} :
    i.joined j = true ↔ (i.isPad && j.isPad) = false ∧ ∃ p k, i.Reaches p k ∧ j.Reaches p k := by
  cases i with
  | track id t =>
    cases j with
    | track n u =>
      simp only [joined, Track.touches_iff, Track.sharesLayer, LayerSet.intersects_iff, isPad,
        Bool.false_and, true_and]
      constructor
      · rintro ⟨p, first, second, k, one, other⟩
        exact ⟨p, k, ⟨first, one⟩, ⟨second, other⟩⟩
      · rintro ⟨p, k, ⟨first, one⟩, ⟨second, other⟩⟩
        exact ⟨p, first, second, k, one, other⟩
    | pad n q =>
      rw [joined_track_pad]
      simp [isPad]
  | pad n q =>
    cases j with
    | track id t =>
      rw [joined_comm, joined_track_pad]
      simp only [isPad, Bool.and_false, true_and]
      constructor
      · rintro ⟨p, k, first, second⟩
        exact ⟨p, k, second, first⟩
      · rintro ⟨p, k, first, second⟩
        exact ⟨p, k, second, first⟩
    | pad m r => simp [joined, isPad]

end CopperItem

namespace Board

variable {b c : Board} {net : UInt32} {x y : Conductor} {p : Point} {k : Nat}

/-- The item of that name reaches a point on a layer. -/
def Reaches (b : Board) (net : UInt32) (x : Conductor) (p : Point) (k : Nat) : Prop :=
  ∃ i, b.item? net x = some i ∧ i.Reaches p k

theorem isPad_of_item? {i : CopperItem} (h : b.item? net x = some i) : i.isPad = x.isPad := by
  rw [← conductor_of_item? h]
  cases i <;> rfl

theorem reaches_track {id : Nat} :
    b.Reaches net (.track id) p k ↔
      ∃ t, b.track? id = some t ∧ t.net = net ∧ t.hasEndAt p = true ∧
        t.layers.mask.testBit k = true := by
  constructor
  · rintro ⟨i, named, reaches⟩
    obtain ⟨t, there, net, rfl⟩ := item?_track.mp named
    exact ⟨t, there, net, reaches⟩
  · rintro ⟨t, there, net, reaches⟩
    exact ⟨.track id t, item?_track.mpr ⟨t, there, net, rfl⟩, reaches⟩

theorem reaches_pad {id : Nat} :
    b.Reaches net (.pad id) p k ↔
      ∃ pad, b.pad? id = some pad ∧ pad.net = net ∧ pad.kind ≠ .nonPlated ∧ pad.position = p ∧
        pad.layers.mask.testBit k = true := by
  constructor
  · rintro ⟨i, named, reaches⟩
    obtain ⟨pad, there, net, rfl⟩ := item?_pad.mp named
    exact ⟨pad, there, net, reaches⟩
  · rintro ⟨pad, there, net, reaches⟩
    exact ⟨.pad id pad, item?_pad.mpr ⟨pad, there, net, rfl⟩, reaches⟩

theorem joined_iff :
    b.Joined net x y ↔
      (x.isPad && y.isPad) = false ∧ ∃ p k, b.Reaches net x p k ∧ b.Reaches net y p k := by
  constructor
  · rintro ⟨i, j, hi, hj, joins⟩
    obtain ⟨one_track, p, k, first, second⟩ := CopperItem.joined_iff.mp joins
    rw [isPad_of_item? hi, isPad_of_item? hj] at one_track
    exact ⟨one_track, p, k, ⟨i, hi, first⟩, ⟨j, hj, second⟩⟩
  · rintro ⟨one_track, p, k, ⟨i, hi, first⟩, ⟨j, hj, second⟩⟩
    rw [← isPad_of_item? hi, ← isPad_of_item? hj] at one_track
    exact ⟨i, j, hi, hj, CopperItem.joined_iff.mpr ⟨one_track, p, k, first, second⟩⟩

theorem Reaches.there (h : b.Reaches net x p k) : (b.item? net x).isSome = true := by
  obtain ⟨i, named, _⟩ := h
  rw [named]
  rfl

/-! ## Moves -/

theorem Junction.joined {id other : Nat} {side : Side} {t u : Track}
    (h : b.Junction id side other t u) : b.Joined t.net (.track id) (.track other) := by
  obtain ⟨_, ends, layer, net⟩ := h.facts
  rw [Track.sharesLayer, LayerSet.intersects_iff] at layer
  obtain ⟨k, one, another⟩ := layer
  refine joined_iff.mpr ⟨rfl, t.point side, k, ?_, ?_⟩
  · exact reaches_track.mpr ⟨t, h.there, rfl, (Track.hasEndAt_iff_side side).mpr (.inl rfl), another⟩
  · exact reaches_track.mpr ⟨u, h.thereOther, net, ends, one⟩

/-- What a name reaches after a move was reached before, by a name that it was linked to. -/
theorem Move.reached {o : Options} {cs : List Change} (move : Move o b cs c)
    (h : c.Reaches net x p k) :
    ∃ x', b.Reaches net x' p k ∧ b.Linked net x x' ∧ x'.isPad = x.isPad := by
  cases x with
  | pad id =>
    obtain ⟨pad, there, facts⟩ := reaches_pad.mp h
    have same : b.pad? id = c.pad? id := by
      rw [pad?, pad?, move.pads_zones.1]
    have was : b.Reaches net (.pad id) p k := reaches_pad.mpr ⟨pad, same.trans there, facts⟩
    exact ⟨.pad id, was, .refl was.there, rfl⟩
  | track id =>
    obtain ⟨t, live, inNet, ends, layer⟩ := reaches_track.mp h
    obtain ⟨id', t', there, ends', net', layers, whose⟩ := (move.origin live).end_was ends
    have was : b.Reaches net (.track id') p k :=
      reaches_track.mpr ⟨t', there, net'.trans inNet, ends', layers ▸ layer⟩
    refine ⟨.track id', was, ?_, rfl⟩
    rcases whose with rfl | ⟨side, t₀, meet⟩
    · exact .refl was.there
    · have joined := meet.joined
      rw [← meet.net, net', inNet] at joined
      exact joined.linked

theorem Move.was_there {o : Options} {cs : List Change} (move : Move o b cs c)
    (h : (c.item? net x).isSome = true) : (b.item? net x).isSome = true := by
  obtain ⟨i, named⟩ := Option.isSome_iff_exists.mp h
  cases x with
  | pad id =>
    obtain ⟨pad, there, inNet, rfl⟩ := item?_pad.mp named
    have same : b.pad? id = c.pad? id := by
      rw [pad?, pad?, move.pads_zones.1]
    rw [item?_pad.mpr ⟨pad, same.trans there, inNet, rfl⟩]
    rfl
  | track id =>
    obtain ⟨t, live, inNet, rfl⟩ := item?_track.mp named
    have was (t' : Track) (there : b.track? id = some t') (same : t'.net = t.net) :
        (b.item? net (.track id)).isSome = true := by
      rw [item?_track.mpr ⟨t', there, same.trans inNet, rfl⟩]
      rfl
    cases move.origin live with
    | kept there => exact was t there rfl
    | mended there => exact was _ there rfl
    | stretched meet => exact was _ meet.there (Track.net_setPoint _ _ _).symm

theorem Move.refines {o : Options} {cs : List Change} (move : Move o b cs c)
    (h : c.Linked net x y) : b.Linked net x y := by
  induction h with
  | refl there => exact .refl (move.was_there there)
  | step _ last ih =>
    obtain ⟨one_track, p, k, first, second⟩ := joined_iff.mp last
    obtain ⟨y', reaches, linked, kind⟩ := move.reached first
    obtain ⟨z', reaches', linked', kind'⟩ := move.reached second
    rw [← kind, ← kind'] at one_track
    have joined : b.Joined net y' z' := joined_iff.mpr ⟨one_track, p, k, reaches, reaches'⟩
    exact ((ih.trans linked).trans joined.linked).trans linked'.symm

/-- A cleaning links nothing that was apart. -/
theorem Moves.refines {o : Options} {cs : List Change} (moves : Moves o b cs c)
    (h : c.Linked net x y) : b.Linked net x y := by
  induction moves generalizing x y with
  | nil => exact h
  | snoc _ last ih => exact ih (last.refines h)

theorem Moves.was_there {o : Options} {cs : List Change} (moves : Moves o b cs c)
    (h : (c.item? net x).isSome = true) : (b.item? net x).isSome = true := by
  induction moves with
  | nil => exact h
  | snoc _ last ih => exact ih (last.was_there h)

end Board
end CopperTidy
