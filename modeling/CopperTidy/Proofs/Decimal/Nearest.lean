import CopperTidy.Proofs.Decimal.Whole

/-! # Integers next to a ratio

What the two ways to round a ratio give when it lies close to an integer, and what that means for
the nearest integer of a float.
-/

namespace CopperTidy.Decimal
set_option autoImplicit false

open Float.Model.UnpackedFloat

namespace Ratio

def value (r : Ratio) : ℚ := r.num / r.den

theorem scale_den_pos {r : Ratio} {base : Nat} {e : Int} (pos : 0 < r.den) (large : 0 < base) :
    0 < (r.scale base e).den := by
  unfold scale
  split
  · exact pos
  · exact Nat.mul_pos pos (Nat.pow_pos large)

theorem scale_value (r : Ratio) (base : Nat) (e : Int) :
    (r.scale base e).value = r.value * (base : ℚ) ^ e := by
  unfold scale value
  rw [Nat.pow_eq, Nat.pow_eq]
  split
  · next up =>
    obtain ⟨n, rfl⟩ := Int.eq_ofNat_of_zero_le up
    rw [Int.toNat_natCast, zpow_natCast]
    push_cast
    ring
  · next down =>
    obtain ⟨n, rfl⟩ : ∃ n : Nat, e = -n := ⟨(-e).toNat, by omega⟩
    rw [neg_neg, Int.toNat_natCast, zpow_neg, zpow_natCast]
    push_cast
    rw [div_mul_eq_div_div, div_eq_mul_inv]

theorem below_half_iff {r : Ratio} (pos : 0 < r.den) {n : Nat} :
    r.value < n + 1 / 2 ↔ 2 * r.num < 2 * (n * r.den) + r.den := by
  have positive : (0 : ℚ) < r.den := by exact_mod_cast pos
  rw [value, div_lt_iff₀ positive]
  constructor
  · intro h
    have doubled : (2 * r.num : ℚ) < 2 * (n * r.den) + r.den := by linarith
    exact_mod_cast doubled
  · intro h
    have doubled : (2 * r.num : ℚ) < 2 * (n * r.den) + r.den := by exact_mod_cast h
    linarith

theorem above_half_iff {r : Ratio} (pos : 0 < r.den) {n : Nat} :
    n - 1 / 2 < r.value ↔ 2 * (n * r.den) < 2 * r.num + r.den := by
  have positive : (0 : ℚ) < r.den := by exact_mod_cast pos
  rw [value, lt_div_iff₀ positive]
  constructor
  · intro h
    have doubled : (2 * (n * r.den) : ℚ) < 2 * r.num + r.den := by linarith
    exact_mod_cast doubled
  · intro h
    have doubled : (2 * (n * r.den) : ℚ) < 2 * r.num + r.den := by exact_mod_cast h
    linarith

/-- A ratio less than a half away from an integer, without fractions. -/
theorem bounds_of_near {r : Ratio} (pos : 0 < r.den) {n : Nat} (near : |r.value - n| < 1 / 2) :
    2 * (n * r.den) < 2 * r.num + r.den ∧ 2 * r.num < 2 * (n * r.den) + r.den := by
  rw [abs_lt] at near
  exact ⟨(above_half_iff pos).mp (by linarith), (below_half_iff pos).mp (by linarith)⟩

theorem nearestEven_eq {r : Ratio} (pos : 0 < r.den) {n : Nat} (near : |r.value - n| < 1 / 2) :
    r.nearestEven = n := by
  obtain ⟨low, high⟩ := bounds_of_near pos near
  have whole := Nat.div_add_mod r.num r.den
  have small := Nat.mod_lt r.num pos
  simp only [nearestEven]
  generalize r.num / r.den = q at whole
  generalize r.num % r.den = rest at whole small
  rw [Nat.mul_comm] at whole
  have least : q ≤ n := by
    by_contra less
    have scaled : (n + 1) * r.den ≤ q * r.den := Nat.mul_le_mul_right _ (by omega)
    rw [Nat.succ_mul] at scaled
    omega
  have most : n ≤ q + 1 := by
    by_contra more
    have scaled : (q + 2) * r.den ≤ n * r.den := Nat.mul_le_mul_right _ (by omega)
    rw [Nat.add_mul] at scaled
    omega
  rcases Nat.lt_or_eq_of_le most with same | next
  · have equal : n = q := by omega
    subst equal
    rw [if_pos (by omega)]
  · subst next
    have expand : (q + 1) * r.den = q * r.den + r.den := Nat.succ_mul _ _
    rw [expand] at low high
    rw [if_neg (by omega), if_pos (by omega)]

theorem nearestUp_eq {r : Ratio} (pos : 0 < r.den) {n : Nat} (near : |r.value - n| < 1 / 2) :
    r.nearestUp = n := by
  obtain ⟨low, high⟩ := bounds_of_near pos near
  have expand : (n + 1) * r.den = n * r.den + r.den := Nat.succ_mul _ _
  refine Nat.div_eq_of_lt_le ?_ ?_
  · rw [Nat.mul_left_comm]
    omega
  · rw [Nat.mul_left_comm, expand]
    omega

theorem nearestUp_le {r : Ratio} (pos : 0 < r.den) {n : Nat} (below : r.value < n + 1 / 2) :
    r.nearestUp ≤ n := by
  have bound := (below_half_iff pos).mp below
  have expand : (n + 1) * r.den = n * r.den + r.den := Nat.succ_mul _ _
  rw [nearestUp, ← Nat.lt_succ_iff, Nat.div_lt_iff_lt_mul (by omega), Nat.mul_left_comm, expand]
  omega

end Ratio

/-! ## Magnitudes -/

theorem magnitude_den_pos (m : Nat) (e : Int) : 0 < (magnitude m e).den :=
  Ratio.scale_den_pos Nat.one_pos (by omega)

theorem magnitude_value (m : Nat) (e : Int) : (magnitude m e).value = m * 2 ^ e := by
  have one : Ratio.value ⟨m, 1⟩ = m := by
    rw [Ratio.value, Nat.cast_one, div_one]
  rw [magnitude, Ratio.scale_value, one, Nat.cast_ofNat]

/-! ## The nearest integer of a float -/

theorem clamp_toInt (n : Int64) : clamp n.toInt = n := by
  have low := n.le_toInt
  have high := n.toInt_lt
  have least := Int64.toInt_minValue
  have greatest := Int64.toInt_maxValue
  unfold clamp
  rw [if_neg (by omega), if_neg (by omega), Int64.ofInt_toInt]

/-- Less than half a nanometre off, a float is rounded to the integer it is meant for. -/
theorem Denotes.nearest_eq {x : Float} {n : Int64} {q : ℚ} (h : Denotes x (signOf n.toInt) q)
    (near : |q - n.toInt.natAbs| < 1 / 2) : nearest x = n := by
  obtain ⟨m, e, parts, value⟩ := h.parts
  rw [value, ← magnitude_value] at near
  have rounded := Ratio.nearestUp_eq (magnitude_den_pos m e) near
  simp only [nearest, parts, rounded]
  have signed : (if isNegative (signOf n.toInt) then -(n.toInt.natAbs : Int)
      else (n.toInt.natAbs : Int)) = n.toInt := by
    unfold signOf
    by_cases negative : n.toInt < 0
    · rw [if_pos negative, isNegative, if_pos rfl]
      omega
    · rw [if_neg negative, isNegative, if_neg Bool.false_ne_true]
      omega
  rw [signed, clamp_toInt]

theorem clamp_natAbs_le {n : Int} {bound : Nat} (h : n.natAbs ≤ bound) :
    (clamp n).toInt.natAbs ≤ bound := by
  have least := Int64.toInt_minValue
  have greatest := Int64.toInt_maxValue
  unfold clamp
  split
  · omega
  split
  · omega
  · rw [Int64.toInt_ofInt_of_le (by omega) (by omega)]
    exact h

theorem Denotes.nearest_le {x : Float} {sign : Sign} {q : ℚ} {bound : Nat} (h : Denotes x sign q)
    (below : q < bound + 1 / 2) : (nearest x).toInt.natAbs ≤ bound := by
  obtain ⟨m, e, parts, value⟩ := h.parts
  rw [value, ← magnitude_value] at below
  have rounded := Ratio.nearestUp_le (magnitude_den_pos m e) below
  simp only [nearest, parts]
  refine clamp_natAbs_le ?_
  split <;> omega

end CopperTidy.Decimal
