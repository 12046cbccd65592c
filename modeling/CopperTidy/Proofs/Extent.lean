import CopperTidy.Proofs.Merging
import Mathlib.Analysis.Convex.Between
import Mathlib.Tactic.LinearCombination

/-! # What a merge covers

A trace is the straight line between its ends, as a set of points with rational coordinates. Two
traces that share an end and are parallel lie on one line, but the test does not ask for the sense
of the directions: the second trace may run on from the first or fold back over it. The merged trace
runs between the two outer ends. It covers what the two traces covered, but for the part in which
they overlap.
-/

namespace CopperTidy
set_option autoImplicit false

/-! ## Segments that share an end -/

section Line

variable {V : Type} [AddCommGroup V] [Module ℚ V] {x y z w : V}

def Aligned (x y z : V) : Prop := Collinear ℚ {x, y, z}

theorem wbtw_or_of_wbtw (first : Wbtw ℚ x y z) (second : Wbtw ℚ x w z) :
    Wbtw ℚ x w y ∨ Wbtw ℚ y w z := by
  obtain ⟨a, ⟨low, _⟩, rfl⟩ := first
  obtain ⟨c, ⟨low', _⟩, rfl⟩ := id second
  rcases wbtw_or_wbtw_smul_vadd_of_nonneg x (z -ᵥ x) low low' with inner | outer
  · exact .inr (second.trans_left_right inner)
  · exact .inl outer

/-- A point on a segment cuts it in two. -/
theorem segment_union (h : Wbtw ℚ x y z) : segment ℚ x y ∪ segment ℚ y z = segment ℚ x z := by
  ext w
  simp only [Set.mem_union, mem_segment_iff_wbtw]
  exact ⟨fun part => part.elim h.trans_left h.trans_right, wbtw_or_of_wbtw h⟩

theorem segment_inter (h : Wbtw ℚ x y z) : segment ℚ x y ∩ segment ℚ y z = {y} := by
  ext w
  simp only [Set.mem_inter_iff, mem_segment_iff_wbtw, Set.mem_singleton_iff]
  constructor
  · rintro ⟨left, right⟩
    exact ((wbtw_swap_right_iff ℚ x).mp ⟨h.trans_right_left right, left⟩).symm
  · rintro rfl
    exact ⟨wbtw_self_right ℚ _ _, wbtw_self_left ℚ _ _⟩

theorem segment_subset_of_wbtw (h : Wbtw ℚ x y z) : segment ℚ x y ⊆ segment ℚ x z := by
  rw [← segment_union h]
  exact Set.subset_union_left

/-- Two segments of a line that share an end overlap just if neither runs on from the other. -/
theorem wbtw_iff_inter (line : Aligned x y z) :
    Wbtw ℚ x y z ↔ segment ℚ x y ∩ segment ℚ y z = {y} := by
  refine ⟨segment_inter, fun apart => ?_⟩
  rcases Collinear.wbtw_or_wbtw_or_wbtw line with on | back | back
  · exact on
  · have shared : z ∈ segment ℚ x y ∩ segment ℚ y z :=
      ⟨mem_segment_iff_wbtw.mpr back.symm, right_mem_segment ℚ y z⟩
    rw [apart, Set.mem_singleton_iff] at shared
    rw [shared]
    exact wbtw_self_right ℚ x y
  · have shared : x ∈ segment ℚ x y ∩ segment ℚ y z :=
      ⟨left_mem_segment ℚ x y, mem_segment_iff_wbtw.mpr back.symm⟩
    rw [apart, Set.mem_singleton_iff] at shared
    rw [shared]
    exact wbtw_self_left ℚ y z

/-- The segment between the outer ends covers the two segments, if they run on. -/
theorem outer_eq_union_iff (line : Aligned x y z) :
    segment ℚ x z = segment ℚ x y ∪ segment ℚ y z ↔ segment ℚ x y ∩ segment ℚ y z = {y} := by
  rw [← wbtw_iff_inter line]
  constructor
  · intro outer
    rw [← mem_segment_iff_wbtw, outer]
    exact .inl (right_mem_segment ℚ x y)
  · exact fun on => (segment_union on).symm

/-- In any case nothing is left uncovered but what the two have in common. -/
theorem outer_union_inter (line : Aligned x y z) :
    segment ℚ x z ∪ (segment ℚ x y ∩ segment ℚ y z) = segment ℚ x y ∪ segment ℚ y z := by
  rcases Collinear.wbtw_or_wbtw_or_wbtw line with on | back | back
  · rw [segment_union on, Set.union_eq_left, ← segment_union on]
    exact fun w both => .inl both.1
  · have inside : segment ℚ y z ⊆ segment ℚ x y := by
      rw [segment_symm ℚ x y]
      exact segment_subset_of_wbtw back
    rw [Set.inter_eq_right.mpr inside, Set.union_eq_left.mpr inside, segment_symm ℚ x z,
      segment_symm ℚ x y, Set.union_comm]
    exact segment_union back
  · have inside : segment ℚ x y ⊆ segment ℚ y z := by
      rw [segment_symm ℚ x y]
      exact segment_subset_of_wbtw back.symm
    rw [Set.inter_eq_left.mpr inside, Set.union_eq_right.mpr inside, segment_symm ℚ x z,
      segment_symm ℚ y z]
    exact segment_union back

end Line

/-- Points of the plane are on one line if the steps between them are parallel. -/
theorem aligned_of_cross {x y z : ℚ × ℚ}
    (cross : (y.1 - x.1) * (z.2 - y.2) = (z.1 - y.1) * (y.2 - x.2)) : Aligned x y z := by
  unfold Aligned
  by_cases same : x = y
  · rw [same]
    simp [collinear_pair]
  · have step : ∃ r : ℚ, z = r • (y - x) + y := by
      by_cases vertical : y.1 - x.1 = 0
      · have rise : y.2 - x.2 ≠ 0 := fun level =>
          same (Prod.ext (sub_eq_zero.mp vertical).symm (sub_eq_zero.mp level).symm)
        have along : z.1 - y.1 = 0 := by
          rw [vertical, zero_mul] at cross
          exact (mul_eq_zero.mp cross.symm).resolve_right rise
        refine ⟨(z.2 - y.2) / (y.2 - x.2), Prod.ext ?_ ?_⟩
        · simp only [Prod.fst_add, Prod.smul_fst, Prod.fst_sub, smul_eq_mul, vertical]
          linear_combination along
        · simp only [Prod.snd_add, Prod.smul_snd, Prod.snd_sub, smul_eq_mul]
          rw [div_mul_cancel₀ _ rise, sub_add_cancel]
      · refine ⟨(z.1 - y.1) / (y.1 - x.1), Prod.ext ?_ ?_⟩
        · simp only [Prod.fst_add, Prod.smul_fst, Prod.fst_sub, smul_eq_mul]
          rw [div_mul_cancel₀ _ vertical, sub_add_cancel]
        · simp only [Prod.snd_add, Prod.smul_snd, Prod.snd_sub, smul_eq_mul]
          rw [div_mul_eq_mul_div, ← cross, mul_div_cancel_left₀ _ vertical, sub_add_cancel]
    have listed : y ∈ ({x, y, z} : Set (ℚ × ℚ)) := by simp
    refine (collinear_iff_of_mem listed).mpr ⟨y - x, ?_⟩
    simp only [Set.mem_insert_iff, Set.mem_singleton_iff, vadd_eq_add, forall_eq_or_imp, forall_eq]
    exact ⟨⟨-1, by simp⟩, ⟨0, by simp⟩, step⟩

/-! ## Traces as sets of points -/

/-- The point of the plane, with rational coordinates. -/
def Point.place (p : Point) : ℚ × ℚ := (p.x.toInt, p.y.toInt)

/-- The points on a trace. -/
def Track.points (t : Track) : Set (ℚ × ℚ) := segment ℚ t.start.place t.stop.place

namespace Track

variable {t u : Track} {side far : Side}

theorem points_eq (t : Track) (side : Side) :
    t.points = segment ℚ (t.point side.opposite).place (t.point side).place := by
  cases side with
  | start => exact segment_symm ℚ _ _
  | stop => rfl

theorem points_of_sameEnds (same : t.sameEnds u = true) : t.points = u.points := by
  simp only [sameEnds, Bool.or_eq_true, Bool.and_eq_true, beq_iff_eq] at same
  rcases same with ⟨first, last⟩ | ⟨first, last⟩
  · rw [points, first, last, points]
  · rw [points, first, last, segment_symm, points]

/-- Parallel traces that share an end lie on one line. -/
theorem aligned_places (line : t.collinear u = true)
    (near : u.point far.opposite = t.point side) :
    Aligned (t.point side.opposite).place (t.point side).place (u.point far).place := by
  obtain ⟨vertical, cross⟩ := parallel_iff.mp line
  have product : t.direction.1 * u.direction.2 = u.direction.1 * t.direction.2 := by
    by_cases e : t.direction.1 = 0
    · rw [e, vertical.mp e, Int.zero_mul, Int.zero_mul]
    · rw [← cross e, Int.mul_comm]
  simp only [direction] at product
  have product : ((t.stop.x.toInt : ℚ) - t.start.x.toInt) * (u.stop.y.toInt - u.start.y.toInt) =
      (u.stop.x.toInt - u.start.x.toInt) * (t.stop.y.toInt - t.start.y.toInt) := by
    exact_mod_cast product
  refine aligned_of_cross ?_
  cases side <;> cases far <;> simp only [point, Side.opposite, Point.place] at near ⊢ <;>
    rw [← near] at product ⊢
  · linear_combination product
  · linear_combination -product
  · linear_combination -product
  · linear_combination product

end Track

/-! ## Merges -/

namespace Run

variable {σ : Type}

/-- A step that merges takes the neighbour away, and leaves a trace that covers what the two did,
but for their overlap. So it covers all just if they have the same ends or nothing but the junction
in common. -/
theorem mergeOnce_extent (r : Run Contacts σ) (h : r.Coherent) (id : Nat)
    (merges : (r.mergeOnce id).2 = true) :
    let b := r.board
    let c := (r.mergeOnce id).1.board
    ∃ side other t u t', b.Junction id side other t u ∧
      (∀ n, c.track? n = if n = other then none else if n = id then some t' else b.track? n) ∧
      t'.points ∪ (t.points ∩ u.points) = t.points ∪ u.points ∧
      (t'.points = t.points ∪ u.points ↔
        t.sameEnds u = true ∨ t.points ∩ u.points = {(t.point side).place}) := by
  rcases h.mergeOnce_cases id with ⟨idle, _⟩ | ⟨_, merged⟩
  · rw [idle] at merges
    cases merges
  · obtain ⟨side, other, t, u, t', meet, tracks, kind⟩ := merged.result
    refine ⟨side, other, t, u, t', meet, tracks, ?_⟩
    rcases kind with ⟨same, rfl⟩ | ⟨ends, line, rfl⟩
    · rw [← Track.points_of_sameEnds same, Set.union_self, Set.inter_self, Set.union_self]
      exact ⟨rfl, fun _ => .inl same, fun _ => rfl⟩
    · obtain ⟨far, atFar, near⟩ := meet.exists_far
      have places := Track.aligned_places line near
      have second := u.points_eq far
      rw [near] at second
      rw [Track.points_eq _ side, Track.point_setPoint, Track.point_opposite_setPoint, ← atFar,
        t.points_eq side, second, ends]
      refine ⟨outer_union_inter places, (outer_eq_union_iff places).trans ?_⟩
      rw [or_iff_right Bool.false_ne_true]

theorem mergeOnce_extent_row :
    let r : Run Contacts Unit := start row .silent ()
    r.Coherent ∧ (r.mergeOnce 0).2 = true ∧ ∃ other t u t', row.track? 0 = some t ∧
      row.track? other = some u ∧ (r.mergeOnce 0).1.board.track? 0 = some t' ∧
        t'.points ∪ (t.points ∩ u.points) = t.points ∪ u.points := by
  intro r
  have coherent : r.Coherent := (start_fresh row .silent ()).coherent
  have merges : (r.mergeOnce 0).2 = true := by decide +kernel
  obtain ⟨side, other, t, u, t', meet, tracks, covers, _⟩ := mergeOnce_extent r coherent 0 merges
  refine ⟨coherent, merges, other, t, u, t', meet.there, meet.thereOther, ?_, covers⟩
  rw [tracks, if_neg meet.ne.symm, if_pos rfl]

/-- A trace and one that folds back over a part of it. -/
def folded : Board :=
  let trace (uuid : String) (start stop : Point) : Option Track :=
    some ⟨uuid, start, stop, 200, .front, 1, .trace⟩
  { slots := [trace "a" ⟨0, 0⟩ ⟨10, 0⟩, trace "b" ⟨10, 0⟩ ⟨4, 0⟩] }

/-- The merge draws the end of the first trace back to the far end of the second one, and the part
that both of them covered is gone. -/
theorem mergeOnce_uncovers :
    let r : Run Contacts Unit := start folded .silent ()
    let c := (r.mergeOnce 0).1.board
    folded.NoNull ∧ (r.mergeOnce 0).2 = true ∧ ∃ t u t', folded.track? 0 = some t ∧
      folded.track? 1 = some u ∧ c.track? 0 = some t' ∧ c.track? 1 = none ∧
        t'.points ≠ t.points ∪ u.points := by
  intro r c
  have shorter : c.track? 0 = some ⟨"a", ⟨0, 0⟩, ⟨4, 0⟩, 200, .front, 1, .trace⟩ := by
    decide +kernel
  refine ⟨Board.forall_track?_iff.mpr (by decide), by decide +kernel, _, _, _, rfl, rfl, shorter,
    by decide +kernel, fun same => ?_⟩
  have covered : (⟨10, 0⟩ : Point).place ∈
      Track.points ⟨"a", ⟨0, 0⟩, ⟨4, 0⟩, 200, .front, 1, .trace⟩ := by
    rw [same]
    exact .inl (right_mem_segment ℚ _ _)
  obtain ⟨x, y, _, _, whole, junction⟩ := covered
  have across := congrArg Prod.fst junction
  have zero : ((0 : Int64).toInt : ℚ) = 0 := by rw [show (0 : Int64).toInt = 0 by decide]; rfl
  have four : ((4 : Int64).toInt : ℚ) = 4 := by rw [show (4 : Int64).toInt = 4 by decide]; rfl
  have ten : ((10 : Int64).toInt : ℚ) = 10 := by rw [show (10 : Int64).toInt = 10 by decide]; rfl
  simp only [Point.place, Prod.fst_add, Prod.smul_fst, smul_eq_mul, zero, four, ten] at across
  linarith

end Run
end CopperTidy
