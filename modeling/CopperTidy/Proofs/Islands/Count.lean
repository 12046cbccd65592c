import CopperTidy.Proofs.Islands.Links
import Mathlib.Algebra.Ring.Nat

/-! # Counting islands of two boards

As long as nothing new is linked, every island of the later board lies in one island of the earlier
board. So the counts differ by the islands that are gone as a whole, and by the pieces that islands
were cut into.
-/

namespace CopperTidy
set_option autoImplicit false

/-! ## Counting -/

theorem countP_le_one {α : Type} {p : α → Bool} {l : List α}
    (apart : l.Pairwise fun a b => ¬ (p a = true ∧ p b = true)) : l.countP p ≤ 1 := by
  induction l with
  | nil => simp
  | cons a rest ih =>
    obtain ⟨first, later⟩ := List.pairwise_cons.mp apart
    rw [List.countP_cons]
    by_cases h : p a = true
    · have none : rest.countP p = 0 :=
        List.countP_eq_zero.mpr fun b mem hb => first b mem ⟨h, hb⟩
      have one : (if p a = true then 1 else 0) = 1 := if_pos h
      omega
    · rw [if_neg h]
      exact ih later

/-- Counting pairs by either side, when each of `gs` has one partner in `hs`. -/
theorem sum_countP_eq_length {α β : Type} {meets : α → β → Bool} {gs : List α} {hs : List β}
    (one : ∀ g ∈ gs, hs.countP (meets g) = 1) :
    (hs.map fun h => gs.countP fun g => meets g h).sum = gs.length := by
  have add (g : α) (rest : List α) (hs : List β) :
      (hs.map fun h => (g :: rest).countP fun g => meets g h).sum =
        hs.countP (meets g) + (hs.map fun h => rest.countP fun g => meets g h).sum := by
    induction hs with
    | nil => rfl
    | cons h others ih =>
      rw [List.map_cons, List.sum_cons, ih, List.countP_cons, List.countP_cons, List.map_cons,
        List.sum_cons]
      omega
  induction gs with
  | nil =>
    clear one
    induction hs with
    | nil => rfl
    | cons h others ih =>
      rw [List.map_cons, List.sum_cons, ih]
      rfl
  | cons g rest ih =>
    rw [add, one g List.mem_cons_self, ih fun g mem => one g (List.mem_cons_of_mem _ mem),
      List.length_cons]
    omega

/-- Each number is what it has beyond one, and one unless it is zero. -/
theorem sum_add_zeros {β : Type} (size : β → Nat) (hs : List β) :
    (hs.map size).sum + hs.countP (fun h => size h == 0) =
      hs.length + (hs.map fun h => size h - 1).sum := by
  induction hs with
  | nil => rfl
  | cons h others ih =>
    simp only [List.map_cons, List.sum_cons, List.countP_cons, List.length_cons, beq_iff_eq]
    split <;> omega

namespace Board

variable {b c : Board} {net : UInt32}

/-! ## Islands of a net -/

def islandGroups (b : Board) (net : UInt32) : List (List CopperItem) :=
  groups CopperItem.joined (b.copperOf net)

/-- The number of islands that is reported for a net; a net that is not listed has none. -/
def islandCount (b : Board) (net : UInt32) : Nat :=
  ((b.islands.find? fun n => n.net == net).map (·.islands)).getD 0

theorem islandGroups_split (b : Board) (net : UInt32) :
    Split CopperItem.joined (b.copperOf net) (b.islandGroups net) :=
  groups_split CopperItem.joined_comm _

theorem islandGroups_disjoint (b : Board) (net : UInt32) :
    (b.islandGroups net).Pairwise fun g h => ∀ i ∈ g, ∀ j ∈ h, i ≠ j :=
  (b.islandGroups_split net).disjoint (b.copperOf_nodup net)

/-- An island holds what is linked to one of its items. -/
theorem mem_island_iff {g : List CopperItem} (mem : g ∈ b.islandGroups net) {i j : CopperItem}
    (hi : i ∈ g) :
    j ∈ g ↔ j ∈ b.copperOf net ∧ b.Linked net i.conductor j.conductor := by
  have split := b.islandGroups_split net
  have inNet := split.mem_iff.mpr ⟨g, mem, hi⟩
  rw [← chained_iff_linked inNet]
  exact ⟨split.chained g mem i hi j, split.mem_of_chained mem hi⟩

theorem copperOf_eq_nil (absent : net ∉ b.nets) (ne : net ≠ 0) : b.copperOf net = [] := by
  rw [List.eq_nil_iff_forall_not_mem]
  intro i mem
  have named := mem_copperOf.mp mem
  apply absent
  rw [mem_nets]
  refine ⟨ne, ?_⟩
  cases i with
  | track id t =>
    obtain ⟨t, there, net, _⟩ := item?_track.mp named
    exact .inl ⟨id, t, there, net⟩
  | pad id p =>
    obtain ⟨p, there, net, _⟩ := item?_pad.mp named
    exact .inr ⟨p, List.mem_of_getElem? there, net⟩

theorem islandCount_eq (b : Board) (net : UInt32) :
    b.islandCount net = if net = 0 then 0 else (b.islandGroups net).length := by
  have same (n : UInt32) : ((b.islandsOf n).net == net) = (n == net) := rfl
  rw [islandCount, islands, List.find?_map]
  by_cases listed : net ∈ b.nets
  · have found : b.nets.find? (fun n => (b.islandsOf n).net == net) = some net := by
      simp only [same]
      cases h : b.nets.find? fun n => n == net with
      | none =>
        have := List.find?_eq_none.mp h net listed
        simp at this
      | some n =>
        have eq := List.find?_some h
        rw [beq_iff_eq.mp eq]
    rw [show ((fun n => n.net == net) ∘ b.islandsOf) = fun n => (b.islandsOf n).net == net from rfl,
      found, if_neg (mem_nets.mp listed).1]
    rfl
  · have missing : b.nets.find? (fun n => (b.islandsOf n).net == net) = none := by
      rw [List.find?_eq_none]
      intro n mem
      rw [same, beq_iff_eq]
      exact fun e => listed (e ▸ mem)
    rw [show ((fun n => n.net == net) ∘ b.islandsOf) = fun n => (b.islandsOf n).net == net from rfl,
      missing]
    by_cases zero : net = 0
    · rw [if_pos zero]
      rfl
    · rw [if_neg zero, islandGroups, copperOf_eq_nil listed zero]
      rfl

/-! ## Pieces -/

/-- Do two islands have an item of one name? -/
def sharesName (piece island : List CopperItem) : Bool :=
  piece.any fun i => island.any fun j => i.conductor == j.conductor

/-- Islands of the later board with an item of an island of the earlier one. -/
def pieces (c : Board) (net : UInt32) (island : List CopperItem) : Nat :=
  (c.islandGroups net).countP fun piece => sharesName piece island

/-- Islands of which nothing is left on the later board. -/
def vanished (b c : Board) (net : UInt32) : Nat :=
  (b.islandGroups net).countP fun island => c.pieces net island == 0

/-- Pieces that islands were cut into on the way to the later board, beyond one for each. -/
def cutOff (b c : Board) (net : UInt32) : Nat :=
  ((b.islandGroups net).map fun island => c.pieces net island - 1).sum

theorem sharesName_iff {g h : List CopperItem} :
    sharesName g h = true ↔ ∃ i ∈ g, ∃ j ∈ h, i.conductor = j.conductor := by
  simp [sharesName, List.any_eq_true]

/-- As long as nothing new is linked, a piece lies in one island. -/
theorem one_island (refines : ∀ x y, c.Linked net x y → b.Linked net x y)
    {g : List CopperItem} (mem : g ∈ c.islandGroups net) :
    (b.islandGroups net).countP (sharesName g) = 1 := by
  have split := c.islandGroups_split net
  obtain ⟨i, hi⟩ := List.exists_mem_of_ne_nil g (split.nonempty g mem)
  have inNet := mem_copperOf.mp (split.mem_iff.mpr ⟨g, mem, hi⟩)
  have self : c.Linked net i.conductor i.conductor := .refl (by rw [inNet]; rfl)
  obtain ⟨j, hj⟩ := Option.isSome_iff_exists.mp (refines _ _ self).left
  have name := conductor_of_item? hj
  obtain ⟨h, memH, inH⟩ :=
    (b.islandGroups_split net).mem_iff.mp (mem_copperOf.mpr (name.symm ▸ hj))
  have some_island : 0 < (b.islandGroups net).countP (sharesName g) :=
    List.countP_pos_iff.mpr ⟨h, memH, sharesName_iff.mpr ⟨i, hi, j, inH, name.symm⟩⟩
  have no_more : (b.islandGroups net).countP (sharesName g) ≤ 1 := by
    refine countP_le_one ((b.islandGroups_disjoint net).imp_of_mem ?_)
    intro h h' memH memH' disjoint ⟨first, second⟩
    obtain ⟨i, hi, j, hj, name⟩ := sharesName_iff.mp first
    obtain ⟨i', hi', j', hj', name'⟩ := sharesName_iff.mp second
    have linked := refines _ _ ((mem_island_iff mem hi).mp hi').2
    rw [name, name'] at linked
    have inNet' := (b.islandGroups_split net).mem_iff.mpr ⟨h', memH', hj'⟩
    exact disjoint j' ((mem_island_iff memH hj).mpr ⟨inNet', linked⟩) j' hj' rfl
  omega

/-- The account of the islands of a net. -/
theorem islandGroups_account (refines : ∀ x y, c.Linked net x y → b.Linked net x y) :
    (c.islandGroups net).length + b.vanished c net =
      (b.islandGroups net).length + b.cutOff c net := by
  have account := sum_add_zeros (c.pieces net) (b.islandGroups net)
  have sum : ((b.islandGroups net).map (c.pieces net)).sum = (c.islandGroups net).length :=
    sum_countP_eq_length fun g mem => one_island refines mem
  rw [sum] at account
  exact account

/-- Nothing is cut off if what is left of each island still hangs together. -/
theorem cutOff_eq_zero
    (keeps : ∀ x y, (c.item? net x).isSome = true → (c.item? net y).isSome = true →
      b.Linked net x y → c.Linked net x y) : b.cutOff c net = 0 := by
  have one (h : List CopperItem) (mem : h ∈ b.islandGroups net) : c.pieces net h ≤ 1 := by
    refine countP_le_one ((c.islandGroups_disjoint net).imp_of_mem ?_)
    intro g g' memG memG' disjoint ⟨first, second⟩
    obtain ⟨i, hi, j, hj, name⟩ := sharesName_iff.mp first
    obtain ⟨i', hi', j', hj', name'⟩ := sharesName_iff.mp second
    have split := c.islandGroups_split net
    have live := mem_copperOf.mp (split.mem_iff.mpr ⟨g, memG, hi⟩)
    have inNet' := split.mem_iff.mpr ⟨g', memG', hi'⟩
    have linked := ((mem_island_iff mem hj).mp hj').2
    rw [← name, ← name'] at linked
    have still := keeps _ _ (by rw [live]; rfl) (by rw [mem_copperOf.mp inNet']; rfl) linked
    exact disjoint i' ((mem_island_iff memG hi).mpr ⟨inNet', still⟩) i' hi' rfl
  rw [cutOff, List.sum_eq_zero_iff_forall_eq_nat]
  intro n mem
  obtain ⟨h, inGroups, rfl⟩ := List.mem_map.mp mem
  have := one h inGroups
  omega

/-- The count of islands does not grow just if at most as many pieces are cut off as islands
vanish. -/
theorem islandCount_le_iff (refines : ∀ x y, c.Linked net x y → b.Linked net x y) :
    c.islandCount net ≤ b.islandCount net ↔ net = 0 ∨ b.cutOff c net ≤ b.vanished c net := by
  have account := islandGroups_account refines
  rw [islandCount_eq, islandCount_eq]
  by_cases zero : net = 0
  · simp [zero]
  · simp only [zero, if_false, false_or]
    omega

end Board
end CopperTidy
