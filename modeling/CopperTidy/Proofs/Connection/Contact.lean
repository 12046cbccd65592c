import CopperTidy.Board.Connection
import CopperTidy.Proofs.Islands.Kept

/-! # Contacts of conductors

Two conductors are in contact just if they reach one point on one layer. In contrast to the links of
islands, two pads can be in contact, and a pad without plating is no conductor at all. No move
connects what was apart, and what a move takes away is connected around it: through a track that
reaches as much, or at the one point where all its contacts meet.
-/

namespace CopperTidy.Board
set_option autoImplicit false

variable {b c past : Board} {o : Options} {net : UInt32} {x y : Conductor} {p : Point} {k id : Nat}
  {t : Track}

theorem reaches_iff_extent :
    b.Reaches net x p k ↔
      ∃ ps s, b.extent? net x = some (ps, s) ∧ p ∈ ps ∧ s.mask.testBit k = true := by
  cases x with
  | track id =>
    simp only [reaches_track, extent?, Option.map_eq_some_iff, Option.filter_eq_some_iff,
      Prod.mk.injEq, beq_iff_eq, Track.hasEndAt_iff]
    constructor
    · rintro ⟨t, there, inNet, ends, layer⟩
      refine ⟨_, _, ⟨t, ⟨there, inNet⟩, rfl, rfl⟩, ?_, layer⟩
      rcases ends with rfl | rfl <;> simp
    · rintro ⟨_, _, ⟨t, ⟨there, inNet⟩, rfl, rfl⟩, mem, layer⟩
      refine ⟨t, there, inNet, ?_, layer⟩
      simpa [eq_comm] using mem
  | pad id =>
    simp only [reaches_pad, extent?, Option.map_eq_some_iff, Option.filter_eq_some_iff,
      Prod.mk.injEq, Bool.and_eq_true, beq_iff_eq, bne_iff_ne]
    constructor
    · rintro ⟨pad, listed, inNet, plated, rfl, layer⟩
      exact ⟨_, _, ⟨pad, ⟨listed, inNet, plated⟩, rfl, rfl⟩, List.mem_singleton_self _, layer⟩
    · rintro ⟨_, _, ⟨pad, ⟨listed, inNet, plated⟩, rfl, rfl⟩, mem, layer⟩
      exact ⟨pad, listed, inNet, plated, (List.mem_singleton.mp mem).symm, layer⟩

theorem inContact_iff :
    b.InContact net x y ↔ ∃ p k, b.Reaches net x p k ∧ b.Reaches net y p k := by
  simp only [reaches_iff_extent]
  constructor
  · rintro ⟨ps, s, qs, t, hx, hy, ⟨p, inX, inY⟩, layers⟩
    obtain ⟨k, first, second⟩ := LayerSet.intersects_iff.mp layers
    exact ⟨p, k, ⟨ps, s, hx, inX, first⟩, ⟨qs, t, hy, inY, second⟩⟩
  · rintro ⟨p, k, ⟨ps, s, hx, inX, first⟩, ⟨qs, t, hy, inY, second⟩⟩
    exact ⟨ps, s, qs, t, hx, hy, ⟨p, inX, inY⟩, LayerSet.intersects_iff.mpr ⟨k, first, second⟩⟩

/-! ## Conductors -/

theorem conducts_track : b.Conducts net (.track id) ↔ ∃ t, b.track? id = some t ∧ t.net = net := by
  simp only [Conducts, extent?, Option.isSome_map, Option.isSome_filter]
  cases b.track? id <;> simp

theorem Conducts.item? (h : b.Conducts net x) : (b.item? net x).isSome = true := by
  cases x with
  | track id =>
    obtain ⟨t, there, inNet⟩ := conducts_track.mp h
    rw [item?_track.mpr ⟨t, there, inNet, rfl⟩]
    rfl
  | pad id =>
    simp only [Conducts, extent?, Option.isSome_map] at h
    obtain ⟨pad, found⟩ := Option.isSome_iff_exists.mp h
    obtain ⟨listed, facts⟩ := Option.filter_eq_some_iff.mp found
    simp only [Bool.and_eq_true, beq_iff_eq] at facts
    rw [item?_pad.mpr ⟨pad, listed, facts.1, rfl⟩]
    rfl

theorem conducts_of_item? (there : (b.item? net (.track id)).isSome = true) :
    b.Conducts net (.track id) := by
  obtain ⟨i, named⟩ := Option.isSome_iff_exists.mp there
  obtain ⟨t, live, inNet, _⟩ := item?_track.mp named
  exact conducts_track.mpr ⟨t, live, inNet⟩

theorem conducts_congr (pads : c.pads = b.pads) (there : (b.item? net x).isSome = true) :
    c.Conducts net x → b.Conducts net x := by
  cases x with
  | track id => exact fun _ => conducts_of_item? there
  | pad id =>
    -- A pad can be there without being plated, so that it conducts has to come from the other board.
    rw [Conducts, Conducts, extent?, extent?, pad?, pad?, pads]
    exact fun h => h

theorem Reaches.conducts (h : b.Reaches net x p k) : b.Conducts net x := by
  obtain ⟨ps, s, extent, _⟩ := reaches_iff_extent.mp h
  rw [Conducts, extent]
  rfl

theorem InContact.connected (h : b.InContact net x y) : b.Connected net x y :=
  .step (.refl h.conducts) h

theorem Connected.left (h : b.Connected net x y) : b.Conducts net x := by
  induction h with
  | refl there => exact there
  | step _ _ ih => exact ih

theorem Connected.right (h : b.Connected net x y) : b.Conducts net y := h.symm.left

/-- Links of an island that start at a conductor connect. -/
theorem Linked.connected (h : b.Linked net x y) (there : b.Conducts net x) :
    b.Connected net x y := by
  induction h with
  | refl => exact .refl there
  | step _ last ih => exact .step ih (inContact_iff.mpr (joined_iff.mp last).2)

/-! ## Nothing new is connected -/

theorem Move.conducted {cs : List Change} (move : Move o b cs c) (h : c.Conducts net x) :
    b.Conducts net x :=
  conducts_congr move.pads_zones.1 (move.was_there h.item?) h

theorem Move.was_connected {cs : List Change} (move : Move o b cs c) (h : c.Connected net x y) :
    b.Connected net x y := by
  induction h with
  | refl there => exact .refl (move.conducted there)
  | step _ last ih =>
    obtain ⟨p, k, first, second⟩ := inContact_iff.mp last
    obtain ⟨y', reaches, linked, _⟩ := move.reached first
    obtain ⟨z', reaches', linked', _⟩ := move.reached second
    have contact : b.InContact net y' z' := inContact_iff.mpr ⟨p, k, reaches, reaches'⟩
    exact ((ih.trans (linked.connected ih.right)).trans contact.connected).trans
      (linked'.symm.connected reaches'.conducts)

theorem Moves.was_connected {cs : List Change} (moves : Moves o b cs c)
    (h : c.Connected net x y) : b.Connected net x y := by
  induction moves with
  | nil => exact h
  | snoc _ last ih => exact ih (last.was_connected h)

/-! ## Taking a track away -/

theorem conducts_remove (ne : x ≠ .track id) :
    (b.remove id).Conducts net x ↔ b.Conducts net x := by
  have same := item?_remove (b := b) net ne
  constructor
  · exact fun h => conducts_congr (remove_pads b id) (same ▸ h.item?) h
  · exact fun h => conducts_congr (remove_pads b id).symm (same ▸ h.item?) h

theorem reaches_remove (ne : x ≠ .track id) :
    (b.remove id).Reaches net x p k ↔ b.Reaches net x p k :=
  reaches_congr (item?_remove net ne)

theorem inContact_remove (hx : x ≠ .track id) (hy : y ≠ .track id) :
    (b.remove id).InContact net x y ↔ b.InContact net x y := by
  simp only [inContact_iff, reaches_remove hx, reaches_remove hy]

theorem ne_of_conducts (h : (b.remove id).Conducts net x) : x ≠ .track id := by
  rintro rfl
  obtain ⟨t, live, _⟩ := conducts_track.mp h
  exact (track?_of_remove live).1 rfl

theorem connected_iff_walk :
    b.Connected net x y ↔
      b.Conducts net x ∧ Relation.ReflTransGen (b.InContact net) x y := by
  constructor
  · intro connected
    induction connected with
    | refl there => exact ⟨there, .refl⟩
    | step _ last ih => exact ⟨ih.1, ih.2.tail last⟩
  · rintro ⟨there, walk⟩
    induction walk with
    | refl => exact .refl there
    | tail _ last ih => exact .step ih last

theorem inContact_track (there : b.track? id = some t) :
    b.InContact net x (.track id) ↔
      t.net = net ∧ ∃ p k, b.Reaches net x p k ∧ t.hasEndAt p = true ∧
        t.layers.mask.testBit k = true := by
  simp only [inContact_iff, reaches_track, there, Option.some.injEq]
  constructor
  · rintro ⟨p, k, reaches, _, rfl, inNet, ends, layer⟩
    exact ⟨inNet, p, k, reaches, ends, layer⟩
  · rintro ⟨inNet, p, k, reaches, ends, layer⟩
    exact ⟨p, k, reaches, t, rfl, inNet, ends, layer⟩

theorem connected_remove {leaf : Conductor → Prop}
    (alone : ∀ v z, leaf v → b.InContact net v z → z = .track id ∨ z = v)
    (around : ∀ w z, w ≠ .track id → z ≠ .track id → b.InContact net w (.track id) →
      b.InContact net z (.track id) → (b.remove id).Connected net w z ∨ leaf w ∨ leaf z)
    (hx : x ≠ .track id) (hy : y ≠ .track id) (leafX : ¬ leaf x) (leafY : ¬ leaf y)
    (connected : b.Connected net x y) : (b.remove id).Connected net x y := by
  obtain ⟨there, walk⟩ := connected_iff_walk.mp connected
  refine connected_iff_walk.mpr ⟨(conducts_remove hx).mpr there, walk_around InContact.symm
    (fun hw hz contact => (inContact_remove hw hz).mpr contact) alone
    (fun w z hw hz first second => ?_) hx hy leafX leafY walk⟩
  exact (around w z hw hz first second.symm).imp_left fun h => (connected_iff_walk.mp h).2

theorem connected_remove_whole
    (around : ∀ w z, w ≠ .track id → z ≠ .track id → b.InContact net w (.track id) →
      b.InContact net z (.track id) → (b.remove id).Connected net w z)
    (hx : x ≠ .track id) (hy : y ≠ .track id) (connected : b.Connected net x y) :
    (b.remove id).Connected net x y :=
  connected_remove (fun _ _ (no : False) _ => no.elim)
    (fun w z hw hz first second => .inl (around w z hw hz first second)) hx hy not_false not_false
    connected

/-- A track can go if another one of its net has its ends and layers. -/
theorem connected_remove_covered (there : b.track? id = some t) {first : Nat} {s : Track}
    (thereS : b.track? first = some s) (net_eq : s.net = t.net) (ne : first ≠ id)
    (ends : ∀ p, t.hasEndAt p = true → s.hasEndAt p = true)
    (layers : ∀ k, t.layers.mask.testBit k = true → s.layers.mask.testBit k = true)
    (hx : x ≠ .track id) (hy : y ≠ .track id) (connected : b.Connected net x y) :
    (b.remove id).Connected net x y := by
  have ne' : Conductor.track first ≠ .track id := fun e => ne (Conductor.track.inj e)
  have toFirst (w : Conductor) (hw : w ≠ .track id) (contact : b.InContact net w (.track id)) :
      (b.remove id).InContact net w (.track first) := by
    obtain ⟨inNet, p, k, reaches, atEnd, layer⟩ := (inContact_track there).mp contact
    refine (inContact_remove hw ne').mpr ((inContact_track thereS).mpr ?_)
    exact ⟨net_eq.trans inNet, p, k, reaches, ends p atEnd, layers k layer⟩
  refine connected_remove_whole (fun w z hw hz first second => ?_) hx hy connected
  exact (toFirst w hw first).connected.trans (toFirst z hz second).symm.connected

/-- A track can go if all its contacts meet at one point and layer. -/
theorem connected_remove_meeting {p : Point} {k : Nat}
    (meet : ∀ w, b.InContact net w (.track id) → b.Reaches net w p k)
    (hx : x ≠ .track id) (hy : y ≠ .track id) (connected : b.Connected net x y) :
    (b.remove id).Connected net x y := by
  refine connected_remove_whole (fun w z hw hz first second => ?_) hx hy connected
  have contact : b.InContact net w z := inContact_iff.mpr ⟨p, k, meet w first, meet z second⟩
  exact ((inContact_remove hw hz).mpr contact).connected

end CopperTidy.Board
