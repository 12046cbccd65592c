import CopperTidy.Copper.Track

/-! # How two tracks lie

Exact tests on the ends of tracks: coincidence, alignment, and the kinds of tracks that may stand
for each other. Coordinate differences are taken over the integers, so nothing overflows.
-/

namespace CopperTidy
set_option autoImplicit false

/-- `a * b = c * d`, told from the signs and the magnitudes. A difference of two coordinates has a
magnitude below `2 ^ 64`, so these products stay below `2 ^ 128`. -/
def productsEqual (a b c d : Int) : Bool :=
  a.sign * b.sign == c.sign * d.sign && a.natAbs * b.natAbs == c.natAbs * d.natAbs

/-- Are two directions parallel? A direction along an axis is only parallel to one along the same
axis; the direction of a track without extent counts as vertical. -/
def parallel (dx₁ dy₁ dx₂ dy₂ : Int) : Bool :=
  if dx₁ = 0 then dx₂ == 0
  else if dx₂ = 0 then false
  else if dy₁ = 0 then dy₂ == 0
  else if dy₂ = 0 then false
  else productsEqual dy₁ dx₂ dx₁ dy₂

theorem productsEqual_iff {a b c d : Int} : productsEqual a b c d = true ↔ a * b = c * d := by
  rw [productsEqual, Bool.and_eq_true, beq_iff_eq, beq_iff_eq, ← Int.sign_mul, ← Int.sign_mul,
    ← Int.natAbs_mul, ← Int.natAbs_mul]
  constructor
  · rintro ⟨sign, size⟩
    rw [← Int.sign_mul_natAbs (a * b), ← Int.sign_mul_natAbs (c * d), sign, size]
  · intro eq
    rw [eq]
    exact ⟨rfl, rfl⟩

theorem parallel_iff {dx₁ dy₁ dx₂ dy₂ : Int} : parallel dx₁ dy₁ dx₂ dy₂ = true ↔
    (dx₁ = 0 ↔ dx₂ = 0) ∧ (dx₁ ≠ 0 → dy₁ * dx₂ = dx₁ * dy₂) := by
  unfold parallel
  by_cases x₁ : dx₁ = 0
  · simp [x₁]
  · by_cases x₂ : dx₂ = 0
    · simp [x₁, x₂]
    · by_cases y₁ : dy₁ = 0
      · have cross : 0 = dx₁ * dy₂ ↔ dy₂ = 0 := by rw [eq_comm, Int.mul_eq_zero, or_iff_right x₁]
        simp [x₁, x₂, y₁, cross]
      · by_cases y₂ : dy₂ = 0
        · simp [x₁, x₂, y₁, y₂]
        · simp [x₁, x₂, y₁, y₂, productsEqual_iff]

namespace Track

/-- A trace without extent. -/
def isNull (t : Track) : Bool := t.isTrace && t.start == t.stop

/-- From the start to the end. -/
def direction (t : Track) : Int × Int :=
  (t.stop.x.toInt - t.start.x.toInt, t.stop.y.toInt - t.start.y.toInt)

/-- Parallel directions. Tracks that share an end then lie on one line. -/
def collinear (t u : Track) : Bool :=
  parallel t.direction.1 t.direction.2 u.direction.1 u.direction.2

/-- The same two ends, in either order. -/
def sameEnds (t u : Track) : Bool :=
  (t.start == u.start && t.stop == u.stop) || (t.start == u.stop && t.stop == u.start)

/-- Is one of the tracks a redundant copy of the other? Two arcs with the same ends may still bulge
differently, so an arc is never a copy. -/
def duplicates (t u : Track) : Bool :=
  !t.isArc && !u.isArc && t.isVia == u.isVia && t.layer == u.layer && t.sameEnds u

/-- Two through vias at one point. -/
def duplicateVias (t u : Track) : Bool :=
  t.isThroughVia && u.isThroughVia && t.start == u.start

/-- Only straight traces of one width are merged. -/
def mergeable (t u : Track) : Bool := t.isTrace && u.isTrace && t.width == u.width

theorem collinear_comm (t u : Track) : t.collinear u = u.collinear t := by
  have swap {t u : Track} (h : t.collinear u = true) : u.collinear t = true := by
    obtain ⟨vertical, cross⟩ := parallel_iff.mp h
    refine parallel_iff.mpr ⟨vertical.symm, fun x => ?_⟩
    rw [Int.mul_comm, ← cross (mt vertical.mp x), Int.mul_comm]
  exact Bool.eq_iff_iff.mpr ⟨swap, swap⟩

theorem sameEnds_comm (t u : Track) : t.sameEnds u = u.sameEnds t := by
  rw [Bool.eq_iff_iff]
  simp only [sameEnds, Bool.or_eq_true, Bool.and_eq_true, beq_iff_eq]
  grind

theorem mergeable_comm (t u : Track) : t.mergeable u = u.mergeable t := by
  rw [Bool.eq_iff_iff]
  simp only [mergeable, Bool.and_eq_true, beq_iff_eq]
  grind

end Track
end CopperTidy
