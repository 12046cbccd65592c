import CopperTidy.Board.Connection
import CopperTidy.Board.Lemmas
import CopperTidy.Proofs.Islands.Groups

/-! # Links of a net

An item of an island has a name that outlives its edits: the id of the track or pad. `Linked` says
of names what islands say of items, so that the islands of two states of a board can be compared.
-/

namespace CopperTidy
set_option autoImplicit false

def CopperItem.conductor : CopperItem → Conductor
  | .track id _ => .track id
  | .pad id _ => .pad id

theorem CopperItem.joined_comm (i j : CopperItem) : i.joined j = j.joined i := by
  cases i <;> cases j
  · exact Track.touches_comm _ _
  · rfl
  · rfl
  · rfl

namespace Board

variable {b c : Board} {net : UInt32} {x y z : Conductor}

/-- The item of a net with a given name. -/
def item? (b : Board) (net : UInt32) : Conductor → Option CopperItem
  | .track id => ((b.track? id).filter fun t => t.net == net).map (.track id)
  | .pad id => ((b.pad? id).filter fun p => p.net == net).map (.pad id)

theorem item?_track {id : Nat} {i : CopperItem} :
    b.item? net (.track id) = some i ↔
      ∃ t, b.track? id = some t ∧ t.net = net ∧ i = .track id t := by
  simp only [item?, Option.map_eq_some_iff, Option.filter_eq_some_iff, beq_iff_eq]
  constructor
  · rintro ⟨t, ⟨there, net⟩, rfl⟩
    exact ⟨t, there, net, rfl⟩
  · rintro ⟨t, there, net, rfl⟩
    exact ⟨t, ⟨there, net⟩, rfl⟩

theorem item?_pad {id : Nat} {i : CopperItem} :
    b.item? net (.pad id) = some i ↔
      ∃ p, b.pad? id = some p ∧ p.net = net ∧ i = .pad id p := by
  simp only [item?, Option.map_eq_some_iff, Option.filter_eq_some_iff, beq_iff_eq]
  constructor
  · rintro ⟨p, ⟨there, net⟩, rfl⟩
    exact ⟨p, there, net, rfl⟩
  · rintro ⟨p, there, net, rfl⟩
    exact ⟨p, ⟨there, net⟩, rfl⟩

theorem conductor_of_item? {i : CopperItem} (h : b.item? net x = some i) : i.conductor = x := by
  cases x with
  | track id =>
    obtain ⟨t, _, _, rfl⟩ := item?_track.mp h
    rfl
  | pad id =>
    obtain ⟨p, _, _, rfl⟩ := item?_pad.mp h
    rfl

theorem mem_copperOf {i : CopperItem} :
    i ∈ b.copperOf net ↔ b.item? net i.conductor = some i := by
  rw [copperOf, List.mem_append, List.mem_map, List.mem_map]
  cases i with
  | track id t =>
    rw [CopperItem.conductor, item?_track]
    constructor
    · rintro (⟨⟨id', t'⟩, mem, eq⟩ | ⟨_, _, eq⟩)
      · obtain ⟨live, net⟩ := List.mem_filter.mp mem
        cases eq
        exact ⟨_, mem_tracks.mp live, by simpa using net, rfl⟩
      · cases eq
    · rintro ⟨t', there, net, eq⟩
      cases eq
      exact .inl ⟨(id, _), List.mem_filter.mpr ⟨mem_tracks.mpr there, by simpa using net⟩, rfl⟩
  | pad id p =>
    rw [CopperItem.conductor, item?_pad]
    constructor
    · rintro (⟨_, _, eq⟩ | ⟨⟨p', id'⟩, mem, eq⟩)
      · cases eq
      · obtain ⟨listed, net⟩ := List.mem_filter.mp mem
        cases eq
        exact ⟨_, List.mem_zipIdx_iff_getElem?.mp listed, by simpa using net, rfl⟩
    · rintro ⟨p', there, net, eq⟩
      cases eq
      refine .inr ⟨(_, id), List.mem_filter.mpr ⟨?_, by simpa using net⟩, rfl⟩
      exact List.mem_zipIdx_iff_getElem?.mpr there

theorem copperOf_nodup (b : Board) (net : UInt32) : (b.copperOf net).Nodup := by
  have tracks : b.tracks.Pairwise fun e f => e.1 < f.1 := List.pairwise_map.mp b.ids_ascending
  have numbers : (b.pads.zipIdx.map (·.2)).Pairwise (· < ·) := by
    rw [List.zipIdx_map_snd]
    exact List.pairwise_lt_range'
  have pads : b.pads.zipIdx.Pairwise fun e f => e.2 < f.2 := List.pairwise_map.mp numbers
  rw [copperOf, List.nodup_append]
  refine ⟨List.pairwise_map.mpr ((tracks.filter _).imp fun lt eq => ?_),
    List.pairwise_map.mpr ((pads.filter _).imp fun lt eq => ?_), ?_⟩
  · rw [(CopperItem.track.inj eq).1] at lt
    omega
  · rw [(CopperItem.pad.inj eq).1] at lt
    omega
  · intro i hi j hj eq
    obtain ⟨_, _, rfl⟩ := List.mem_map.mp hi
    obtain ⟨_, _, rfl⟩ := List.mem_map.mp hj
    cases eq

/-! ## Linked names -/

/-- Two names of items that are joined. -/
def Joined (b : Board) (net : UInt32) (x y : Conductor) : Prop :=
  ∃ i j, b.item? net x = some i ∧ b.item? net y = some j ∧ i.joined j = true

inductive Linked (b : Board) (net : UInt32) (x : Conductor) : Conductor → Prop
  | refl (there : (b.item? net x).isSome = true) : Linked b net x x
  | step {y z : Conductor} (before : Linked b net x y) (last : b.Joined net y z) :
      Linked b net x z

theorem Joined.symm (h : b.Joined net x y) : b.Joined net y x := by
  obtain ⟨i, j, hi, hj, joins⟩ := h
  exact ⟨j, i, hj, hi, CopperItem.joined_comm i j ▸ joins⟩

theorem Joined.left (h : b.Joined net x y) : (b.item? net x).isSome = true := by
  obtain ⟨i, _, hi, _⟩ := h
  rw [hi]
  rfl

theorem Joined.right (h : b.Joined net x y) : (b.item? net y).isSome = true := h.symm.left

theorem Joined.linked (h : b.Joined net x y) : b.Linked net x y := .step (.refl h.left) h

theorem Linked.trans (first : b.Linked net x y) (second : b.Linked net y z) :
    b.Linked net x z := by
  induction second with
  | refl => exact first
  | step _ last ih => exact .step ih last

theorem Linked.symm (h : b.Linked net x y) : b.Linked net y x := by
  induction h with
  | refl there => exact .refl there
  | step _ last ih => exact Linked.trans last.symm.linked ih

theorem Linked.left (h : b.Linked net x y) : (b.item? net x).isSome = true := by
  induction h with
  | refl there => exact there
  | step _ _ ih => exact ih

theorem Linked.right (h : b.Linked net x y) : (b.item? net y).isSome = true := h.symm.left

/-- Chains of items are links of their names. -/
theorem chained_iff_linked {i j : CopperItem} (hi : i ∈ b.copperOf net) :
    Chained CopperItem.joined (b.copperOf net) i j ↔
      j ∈ b.copperOf net ∧ b.Linked net i.conductor j.conductor := by
  constructor
  · intro chain
    induction chain with
    | refl => exact ⟨hi, .refl (by rw [mem_copperOf.mp hi]; rfl)⟩
    | step before mem last ih =>
      exact ⟨mem, .step ih.2 ⟨_, _, mem_copperOf.mp ih.1, mem_copperOf.mp mem, last⟩⟩
  · rintro ⟨hj, linked⟩
    have chain {y : Conductor} (linked : b.Linked net i.conductor y) :
        ∃ k, b.item? net y = some k ∧ Chained CopperItem.joined (b.copperOf net) i k := by
      induction linked with
      | refl => exact ⟨i, mem_copperOf.mp hi, .refl hi⟩
      | step _ last ih =>
        obtain ⟨k, hk, before⟩ := ih
        obtain ⟨k', l, hk', hl, joins⟩ := last
        rw [hk] at hk'
        cases hk'
        have name := conductor_of_item? hl
        exact ⟨l, hl, .step before (mem_copperOf.mpr (name ▸ hl)) joins⟩
    obtain ⟨k, hk, before⟩ := chain linked
    rw [mem_copperOf.mp hj] at hk
    cases hk
    exact before

end Board
end CopperTidy
