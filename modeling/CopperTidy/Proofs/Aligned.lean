import CopperTidy.Copper.Words
import CopperTidy.Proofs.Extent

/-! # The test of alignment is exact

A difference of two coordinates has a magnitude below `2 ^ 64`, so the test never leaves its words.
On tracks with an extent it says whether the cross product of the directions is zero. To have
parallel directions is an equivalence there: the middle one of three directions is not zero, and so
one of its two components can be cancelled. Tracks without extent are apart from this: they count as
vertical.
-/

namespace CopperTidy
set_option autoImplicit false

/-! ## Machine words -/

namespace Words

theorem signed_of_natAbs {n : Int} (small : n.natAbs < 2 ^ 127) : signed n = some n := by
  have low : -2 ^ 127 ≤ n := by omega
  have high : n < 2 ^ 127 := by omega
  exact if_pos ⟨low, high⟩

theorem unsigned_of_lt {n : Nat} (small : n < 2 ^ 128) : unsigned n = some n := if_pos small

theorem natAbs_difference (a b : Int64) : (a.toInt - b.toInt).natAbs < 2 ^ 64 := by
  have s1 := a.le_toInt
  have s2 := a.toInt_lt
  have s3 := b.le_toInt
  have s4 := b.toInt_lt
  omega

theorem difference_eq (a b : Int64) : difference a b = some (a.toInt - b.toInt) := by
  have s1 := a.le_toInt
  have s2 := a.toInt_lt
  have s3 := b.le_toInt
  have s4 := b.toInt_lt
  have s5 := natAbs_difference a b
  have first : signed a.toInt = some a.toInt := signed_of_natAbs (by omega)
  have second : signed b.toInt = some b.toInt := signed_of_natAbs (by omega)
  simp only [difference, first, second, Option.bind_eq_bind, Option.bind_some]
  exact signed_of_natAbs (by omega)

theorem direction_eq (t : Track) : direction t = some t.direction := by
  simp only [direction, difference_eq, Option.bind_eq_bind, Option.bind_some]
  rfl

theorem signProduct_eq (a b : Int) : signProduct a b = some (a.sign * b.sign) := by
  have size (n : Int) : n.sign.natAbs ≤ 1 := by
    rw [Int.natAbs_sign]
    split <;> omega
  have product : (a.sign * b.sign).natAbs ≤ 1 * 1 := by
    rw [Int.natAbs_mul]
    exact Nat.mul_le_mul (size a) (size b)
  have first : signed a.sign = some a.sign := signed_of_natAbs (by have := size a; omega)
  have second : signed b.sign = some b.sign := signed_of_natAbs (by have := size b; omega)
  simp only [signProduct, first, second, Option.bind_eq_bind, Option.bind_some]
  exact signed_of_natAbs (by omega)

theorem sizeProduct_eq {a b : Int} (small : a.natAbs < 2 ^ 64) (small' : b.natAbs < 2 ^ 64) :
    sizeProduct a b = some (a.natAbs * b.natAbs) := by
  have product : a.natAbs * b.natAbs < 2 ^ 64 * 2 ^ 64 := Nat.mul_lt_mul'' small small'
  have first : unsigned a.natAbs = some a.natAbs := unsigned_of_lt (by omega)
  have second : unsigned b.natAbs = some b.natAbs := unsigned_of_lt (by omega)
  simp only [sizeProduct, first, second, Option.bind_eq_bind, Option.bind_some]
  exact unsigned_of_lt (by omega)

theorem productsEqual_eq {a b c d : Int} (ha : a.natAbs < 2 ^ 64) (hb : b.natAbs < 2 ^ 64)
    (hc : c.natAbs < 2 ^ 64) (hd : d.natAbs < 2 ^ 64) :
    productsEqual a b c d = some (CopperTidy.productsEqual a b c d) := by
  simp only [productsEqual, signProduct_eq, sizeProduct_eq ha hb, sizeProduct_eq hc hd,
    Option.bind_eq_bind, Option.bind_some]
  rfl

theorem parallel_eq {dx₁ dy₁ dx₂ dy₂ : Int} (hx₁ : dx₁.natAbs < 2 ^ 64) (hy₁ : dy₁.natAbs < 2 ^ 64)
    (hx₂ : dx₂.natAbs < 2 ^ 64) (hy₂ : dy₂.natAbs < 2 ^ 64) :
    parallel dx₁ dy₁ dx₂ dy₂ = some (CopperTidy.parallel dx₁ dy₁ dx₂ dy₂) := by
  simp only [parallel, CopperTidy.parallel, productsEqual_eq hy₁ hx₂ hx₁ hy₂]
  split_ifs <;> rfl

/-- Every value of the test fits its word. -/
theorem collinear_eq (t u : Track) : collinear t u = some (t.collinear u) := by
  simp only [collinear, direction_eq, Option.bind_eq_bind, Option.bind_some]
  exact parallel_eq (natAbs_difference _ _) (natAbs_difference _ _) (natAbs_difference _ _)
    (natAbs_difference _ _)

end Words

/-! ## The cross product -/

/-- On directions that are not zero the cases of the test come down to the cross product. -/
theorem parallel_iff_cross {dx₁ dy₁ dx₂ dy₂ : Int} (long : dx₁ = 0 → dy₁ ≠ 0)
    (long' : dx₂ = 0 → dy₂ ≠ 0) : parallel dx₁ dy₁ dx₂ dy₂ = true ↔ dx₁ * dy₂ = dy₁ * dx₂ := by
  rw [parallel_iff]
  constructor
  · intro ⟨vertical, cross⟩
    by_cases e : dx₁ = 0
    · rw [e, vertical.mp e, Int.zero_mul, Int.mul_zero]
    · exact (cross e).symm
  · intro cross
    refine ⟨⟨fun e => ?_, fun e => ?_⟩, fun _ => cross.symm⟩
    · rw [e, Int.zero_mul] at cross
      exact (Int.mul_eq_zero.mp cross.symm).resolve_left (long e)
    · rw [e, Int.mul_zero] at cross
      exact (Int.mul_eq_zero.mp cross).resolve_right (long' e)

/-- What is parallel to one direction is parallel to each other. -/
theorem cross_trans {dx₁ dy₁ dx₂ dy₂ dx₃ dy₃ : Int} (long : dx₂ = 0 → dy₂ ≠ 0)
    (first : dx₁ * dy₂ = dy₁ * dx₂) (second : dx₂ * dy₃ = dy₂ * dx₃) :
    dx₁ * dy₃ = dy₁ * dx₃ := by
  by_cases e : dx₂ = 0
  · have scaled : dy₂ * (dx₁ * dy₃) = dy₂ * (dy₁ * dx₃) := by
      linear_combination dy₃ * first + dy₁ * second
    exact Int.eq_of_mul_eq_mul_left (long e) scaled
  · have scaled : dx₂ * (dx₁ * dy₃) = dx₂ * (dy₁ * dx₃) := by
      linear_combination dx₁ * second + dx₃ * first
    exact Int.eq_of_mul_eq_mul_left e scaled

theorem Point.eq_of_coordinates {p q : Point} (across : p.x = q.x) (up : p.y = q.y) : p = q := by
  cases p
  cases q
  exact congr (congrArg Point.mk across) up

namespace Track

variable {t u : Track}

theorem direction_ne_zero (long : t.start ≠ t.stop) : t.direction.1 = 0 → t.direction.2 ≠ 0 := by
  intro dx dy
  simp only [direction] at dx dy
  have across : t.start.x = t.stop.x := Int64.toInt_inj.mp (by omega)
  have up : t.start.y = t.stop.y := Int64.toInt_inj.mp (by omega)
  exact long (Point.eq_of_coordinates across up)

theorem collinear_iff_cross (long : t.start ≠ t.stop) (long' : u.start ≠ u.stop) :
    t.collinear u = true ↔ t.direction.1 * u.direction.2 = t.direction.2 * u.direction.1 :=
  parallel_iff_cross (direction_ne_zero long) (direction_ne_zero long')

theorem collinear_equivalence :
    Equivalence fun t u : {t : Track // t.start ≠ t.stop} => t.1.collinear u.1 = true where
  refl t := by
    rw [collinear_iff_cross t.2 t.2]
    exact Int.mul_comm _ _
  symm h := by
    rw [collinear_comm]
    exact h
  trans {t u v} h h' := by
    rw [collinear_iff_cross t.2 u.2] at h
    rw [collinear_iff_cross u.2 v.2] at h'
    rw [collinear_iff_cross t.2 v.2]
    exact cross_trans (direction_ne_zero u.2) h h'

end Track

/-! ## Four ends on one line -/

section Lines

variable {V : Type} [AddCommGroup V] [Module ℚ V]

def OnLine (points : Set V) : Prop := Collinear ℚ points

theorem onLine_iff {points : Set V} :
    OnLine points ↔ ∃ p step : V, ∀ q ∈ points, ∃ r : ℚ, q = r • step + p := by
  simp only [OnLine, collinear_iff_exists_forall_eq_smul_vadd, vadd_eq_add]

end Lines

namespace Track

variable {t u : Track}

/-- The four ends of two tracks as points of the plane. -/
def places (t u : Track) : Set (ℚ × ℚ) :=
  {t.start.place, t.stop.place, u.start.place, u.stop.place}

theorem cross_of_places (line : OnLine (t.places u)) :
    t.direction.1 * u.direction.2 = t.direction.2 * u.direction.1 := by
  obtain ⟨p, step, along⟩ := onLine_iff.mp line
  obtain ⟨a, ha⟩ := along t.start.place (by simp [places])
  obtain ⟨b, hb⟩ := along t.stop.place (by simp [places])
  obtain ⟨c, hc⟩ := along u.start.place (by simp [places])
  obtain ⟨d, hd⟩ := along u.stop.place (by simp [places])
  simp only [Point.place, Prod.ext_iff, Prod.fst_add, Prod.snd_add, Prod.smul_fst,
    Prod.smul_snd, smul_eq_mul] at ha hb hc hd
  have cross : ((t.stop.x.toInt : ℚ) - t.start.x.toInt) * (u.stop.y.toInt - u.start.y.toInt) =
      (t.stop.y.toInt - t.start.y.toInt) * (u.stop.x.toInt - u.start.x.toInt) := by
    rw [ha.1, ha.2, hb.1, hb.2, hc.1, hc.2, hd.1, hd.2]
    ring
  simp only [direction]
  exact_mod_cast cross

theorem exists_side {p : Point} (here : t.hasEndAt p = true) : ∃ side, t.point side = p := by
  rcases hasEndAt_iff.mp here with first | last
  · exact ⟨.start, first⟩
  · exact ⟨.stop, last⟩

/-- Both ends, as seen from one of them. -/
theorem pair_places (t : Track) (side : Side) :
    ({t.start.place, t.stop.place} : Set (ℚ × ℚ)) =
      {(t.point side.opposite).place, (t.point side).place} := by
  cases side with
  | start => exact Set.pair_comm _ _
  | stop => rfl

/-- Parallel tracks that share an end lie on one line as a whole. -/
theorem places_of_collinear {p : Point} (line : t.collinear u = true) (here : t.hasEndAt p = true)
    (there : u.hasEndAt p = true) : OnLine (t.places u) := by
  obtain ⟨side, rfl⟩ := exists_side here
  obtain ⟨near, meet⟩ := exists_side there
  have three : Aligned (t.point side.opposite).place (t.point side).place
      (u.point near.opposite).place := by
    refine aligned_places line ?_
    cases near <;> exact meet
  have split : t.places u =
      {t.start.place, t.stop.place} ∪ {u.start.place, u.stop.place} := by
    simp only [places, Set.insert_union, Set.singleton_union]
  have four : t.places u =
      {(t.point side.opposite).place, (t.point side).place, (u.point near.opposite).place} := by
    rw [split, pair_places t side, pair_places u near, meet]
    ext w
    simp only [Set.mem_union, Set.mem_insert_iff, Set.mem_singleton_iff]
    tauto
  rw [four]
  exact three

theorem collinear_iff_places {p : Point} (long : t.start ≠ t.stop) (long' : u.start ≠ u.stop)
    (here : t.hasEndAt p = true) (there : u.hasEndAt p = true) :
    t.collinear u = true ↔ OnLine (t.places u) :=
  ⟨fun line => places_of_collinear line here there,
    fun line => (collinear_iff_cross long long').mpr (cross_of_places line)⟩

/-! ## The test as a whole -/

/-- The test never leaves its words. Between tracks with an extent it is the equation of the cross
product, and an equivalence; between two that share an end it says that all ends are on one line. -/
theorem collinear_exact (t u : Track) (long : t.start ≠ t.stop) (long' : u.start ≠ u.stop) :
    Words.collinear t u = some (t.collinear u) ∧
    (t.collinear u = true ↔
      (t.stop.x.toInt - t.start.x.toInt) * (u.stop.y.toInt - u.start.y.toInt) =
        (t.stop.y.toInt - t.start.y.toInt) * (u.stop.x.toInt - u.start.x.toInt)) ∧
    Equivalence (fun v w : {v : Track // v.start ≠ v.stop} => v.1.collinear w.1 = true) ∧
    ∀ p, t.hasEndAt p = true → u.hasEndAt p = true →
      (t.collinear u = true ↔
        OnLine {t.start.place, t.stop.place, u.start.place, u.stop.place}) :=
  ⟨Words.collinear_eq t u, collinear_iff_cross long long', collinear_equivalence,
    fun _ here there => collinear_iff_places long long' here there⟩

/-- The diagonal of the whole plane, and a trace back from its end that just misses its start. -/
theorem collinear_exact_extremes :
    let low : Int64 := Int64.minValue
    let high : Int64 := Int64.maxValue
    let t : Track := ⟨"a", ⟨low, low⟩, ⟨high, high⟩, 200, .front, 1, .trace⟩
    let u : Track := ⟨"b", ⟨high, high⟩, ⟨low + 1, low⟩, 200, .front, 1, .trace⟩
    t.start ≠ t.stop ∧ u.start ≠ u.stop ∧ Words.collinear t u = some false ∧
      ¬ OnLine {t.start.place, t.stop.place, u.start.place, u.stop.place} := by
  intro low high t u
  have long : t.start ≠ t.stop := by decide
  have long' : u.start ≠ u.stop := by decide
  have apart : t.collinear u = false := by decide
  obtain ⟨fits, _, _, ends⟩ := collinear_exact t u long long'
  rw [apart] at fits
  have shared := ends ⟨high, high⟩ (by decide) (by decide)
  rw [apart] at shared
  exact ⟨long, long', fits, fun line => Bool.false_ne_true (shared.mpr line)⟩

end Track
end CopperTidy
