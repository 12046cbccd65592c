import CopperTidy.Board.Islands

/-! # Groups are components

`groups` splits a list into the components of a symmetric relation: two items are in one group just
if a chain of joined items of the list leads from one to the other.
-/

namespace CopperTidy
set_option autoImplicit false

variable {α : Type} {joined : α → α → Bool}

/-- A chain of joined items of a list. -/
inductive Chained (joined : α → α → Bool) (items : List α) (x : α) : α → Prop
  | refl (mem : x ∈ items) : Chained joined items x x
  | step {y z : α} (before : Chained joined items x y) (mem : z ∈ items)
      (last : joined y z = true) : Chained joined items x z

namespace Chained

variable {items more : List α} {x y z : α}

theorem right_mem (h : Chained joined items x y) : y ∈ items := by
  cases h with
  | refl mem => exact mem
  | step _ mem _ => exact mem

theorem trans (first : Chained joined items x y) (second : Chained joined items y z) :
    Chained joined items x z := by
  induction second with
  | refl => exact first
  | step _ mem last ih => exact .step ih mem last

theorem single (hx : x ∈ items) (hy : y ∈ items) (h : joined x y = true) :
    Chained joined items x y := .step (.refl hx) hy h

theorem symm (comm : ∀ x y, joined x y = joined y x) (h : Chained joined items x y) :
    Chained joined items y x := by
  induction h with
  | refl mem => exact .refl mem
  | step before mem last ih =>
    exact Chained.trans (.single mem before.right_mem (comm _ _ ▸ last)) ih

theorem mono (sub : ∀ x ∈ items, x ∈ more) (h : Chained joined items x y) :
    Chained joined more x y := by
  induction h with
  | refl mem => exact .refl (sub x mem)
  | step _ mem last ih => exact .step ih (sub _ mem) last

end Chained

/-! ## Splitting -/

/-- The groups split the items into components. -/
structure Split (joined : α → α → Bool) (items : List α) (gs : List (List α)) : Prop where
  perm : gs.flatten.Perm items
  nonempty : ∀ g ∈ gs, g ≠ []
  chained : ∀ g ∈ gs, ∀ x ∈ g, ∀ y ∈ g, Chained joined items x y
  closed : ∀ g ∈ gs, ∀ x ∈ g, ∀ y ∈ items, joined x y = true → y ∈ g

namespace Split

variable {items : List α} {gs : List (List α)}

theorem mem_iff (h : Split joined items gs) {x : α} : x ∈ items ↔ ∃ g ∈ gs, x ∈ g := by
  rw [← h.perm.mem_iff, List.mem_flatten]

theorem near_far_perm (gs : List (List α)) (near : List α → Bool) :
    ((gs.filter near).flatten ++ (gs.filter fun g => !near g).flatten).Perm gs.flatten := by
  have both := (List.filter_append_perm near gs).flatten
  rw [List.flatten_append] at both
  exact both

theorem absorb (comm : ∀ x y, joined x y = joined y x) (h : Split joined items gs) (x : α) :
    Split joined (items ++ [x]) (absorb joined gs x) := by
  have old : ∀ y ∈ items, y ∈ items ++ [x] := fun y mem => List.mem_append_left [x] mem
  have new : x ∈ items ++ [x] := List.mem_append_right items List.mem_cons_self
  have mem_near (y : α) (mem : y ∈ (gs.filter fun g => g.any (joined x)).flatten) :
      ∃ g ∈ gs, y ∈ g ∧ ∃ z ∈ g, joined x z = true := by
    obtain ⟨g, inNear, mem⟩ := List.mem_flatten.mp mem
    obtain ⟨inGs, near⟩ := List.mem_filter.mp inNear
    obtain ⟨z, inG, reaches⟩ := List.any_eq_true.mp near
    exact ⟨g, inGs, mem, z, inG, reaches⟩
  -- From `x` everything in a near group is reached through the item that `x` is joined to.
  have reached (y : α) (mem : y ∈ (gs.filter fun g => g.any (joined x)).flatten) :
      Chained joined (items ++ [x]) x y := by
    obtain ⟨g, inGs, mem, z, inG, reaches⟩ := mem_near y mem
    have chain := (h.chained g inGs z inG y mem).mono old
    exact Chained.trans (.single new (old z (h.mem_iff.mpr ⟨g, inGs, inG⟩)) reaches) chain
  have fromX (y : α) (mem : y ∈ x :: (gs.filter fun g => g.any (joined x)).flatten) :
      Chained joined (items ++ [x]) x y := by
    rcases List.mem_cons.mp mem with rfl | mem
    · exact .refl new
    · exact reached y mem
  constructor
  · show (x :: (_ ++ _)).Perm (items ++ [x])
    have shuffled := (near_far_perm gs fun g => g.any (joined x)).trans h.perm
    exact (shuffled.cons x).trans (List.perm_append_singleton x items).symm
  · intro g mem
    rcases List.mem_cons.mp mem with rfl | mem
    · exact List.cons_ne_nil _ _
    · exact h.nonempty g (List.mem_filter.mp mem).1
  · intro g mem y hy z hz
    rcases List.mem_cons.mp mem with rfl | mem
    · exact ((fromX y hy).symm comm).trans (fromX z hz)
    · exact (h.chained g (List.mem_filter.mp mem).1 y hy z hz).mono old
  · intro g mem y hy z hz joins
    rcases List.mem_cons.mp mem with rfl | mem
    · rcases List.mem_append.mp hz with older | newest
      · refine List.mem_cons_of_mem x ?_
        rcases List.mem_cons.mp hy with isX | inNear
        · obtain ⟨g, inGs, inG⟩ := h.mem_iff.mp older
          have near : g.any (joined x) = true := List.any_eq_true.mpr ⟨z, inG, isX ▸ joins⟩
          exact List.mem_flatten.mpr ⟨g, List.mem_filter.mpr ⟨inGs, near⟩, inG⟩
        · obtain ⟨g, inNear, inG⟩ := List.mem_flatten.mp inNear
          have inGs := (List.mem_filter.mp inNear).1
          exact List.mem_flatten.mpr ⟨g, inNear, h.closed g inGs y inG z older joins⟩
      · rw [List.mem_singleton.mp newest]
        exact List.mem_cons_self
    · obtain ⟨inGs, far⟩ := List.mem_filter.mp mem
      rcases List.mem_append.mp hz with older | newest
      · exact h.closed g inGs y hy z older joins
      · rw [List.mem_singleton.mp newest, comm] at joins
        have near : g.any (joined x) = true := List.any_eq_true.mpr ⟨y, hy, joins⟩
        rw [near] at far
        cases far

end Split

theorem groups_split (comm : ∀ x y, joined x y = joined y x) (items : List α) :
    Split joined items (groups joined items) := by
  have from_split (done rest : List α) (gs : List (List α)) (h : Split joined done gs) :
      Split joined (done ++ rest) (rest.foldl (absorb joined) gs) := by
    induction rest generalizing done gs with
    | nil => rwa [List.append_nil]
    | cons x rest ih =>
      have next := ih (done ++ [x]) (absorb joined gs x) (h.absorb comm x)
      rwa [List.append_assoc] at next
  exact from_split [] items [] ⟨.nil, by simp, by simp, by simp⟩

/-! ## Groups as components -/

namespace Split

variable {items : List α} {gs : List (List α)}

/-- A group that holds one end of a chain holds the other. -/
theorem mem_of_chained (h : Split joined items gs) {g : List α} (mem : g ∈ gs) {x y : α}
    (hx : x ∈ g) (chain : Chained joined items x y) : y ∈ g := by
  induction chain with
  | refl => exact hx
  | step _ inItems last ih => exact h.closed g mem _ ih _ inItems last

/-- Groups of a list without repetitions have no item in common. -/
theorem disjoint (h : Split joined items gs) (nodup : items.Nodup) :
    gs.Pairwise fun g g' => ∀ x ∈ g, ∀ y ∈ g', x ≠ y :=
  (List.pairwise_flatten.mp (h.perm.symm.nodup nodup)).2

end Split
end CopperTidy
