import Mathlib

/-! # Rounding to a float

The model of floats drops the low bits of a mantissa one by one and keeps two bits about what was
dropped. These tell on which side of the half the dropped part lies, so the rounded mantissa is an
integer next to the exact quotient.
-/

namespace CopperTidy.Decimal
set_option autoImplicit false

open Float.Model Float.Model.UnpackedFloat

/-! ## Dropping bits -/

/-- The mantissa is the integer part of `v`, and the two bits tell the rest from a half. -/
def Describes (em : ExtendedMantissa) (v : ℚ) : Prop :=
  match em.roundBit, em.stickyBit with
  | false, false => v = em.mantissa
  | false, true => em.mantissa < v ∧ v < em.mantissa + 1 / 2
  | true, false => v = em.mantissa + 1 / 2
  | true, true => em.mantissa + 1 / 2 < v ∧ v < em.mantissa + 1

theorem Describes.floor {em : ExtendedMantissa} {v : ℚ} (h : Describes em v) :
    em.mantissa ≤ v ∧ v < em.mantissa + 1 := by
  obtain ⟨m, round, sticky⟩ := em
  cases round <;> cases sticky <;> simp only [Describes] at h <;> constructor <;> linarith

theorem Describes.shiftRightOne {em : ExtendedMantissa} {v : ℚ} (h : Describes em v) :
    Describes em.shiftRightOne (v / 2) := by
  obtain ⟨m, round, sticky⟩ := em
  obtain ⟨half, even | odd⟩ := m.even_or_odd'
  · have quotient : m / 2 = half := by omega
    have last : (m % 2 != 0) = false := by rw [bne_eq_false_iff_eq]; omega
    have value : (m : ℚ) = 2 * half := by exact_mod_cast even
    cases round <;> cases sticky <;>
      simp only [Describes, ExtendedMantissa.shiftRightOne, quotient, last, Bool.or_true,
        Bool.or_false, value] at h ⊢
    · linarith
    · constructor <;> linarith
    · constructor <;> linarith
    · constructor <;> linarith
  · have quotient : m / 2 = half := by omega
    have last : (m % 2 != 0) = true := by rw [bne_iff_ne]; omega
    have value : (m : ℚ) = 2 * half + 1 := by exact_mod_cast odd
    cases round <;> cases sticky <;>
      simp only [Describes, ExtendedMantissa.shiftRightOne, quotient, last, Bool.or_true,
        Bool.or_false, value] at h ⊢
    · linarith
    · constructor <;> linarith
    · constructor <;> linarith
    · constructor <;> linarith

theorem Describes.shiftRight {em : ExtendedMantissa} {v : ℚ} (h : Describes em v) (n : Nat) :
    Describes (em >>> n) (v / 2 ^ n) := by
  induction n with
  | zero =>
    rw [pow_zero, div_one]
    exact h
  | succ n ih =>
    have one := ih.shiftRightOne
    rwa [div_div, ← pow_succ] at one

/-- The rounded mantissa is no further than a half from the value. -/
theorem Describes.near {em : ExtendedMantissa} {v : ℚ} (h : Describes em v) :
    |(em.roundedMantissa : ℚ) - v| ≤ 1 / 2 := by
  obtain ⟨m, round, sticky⟩ := em
  rw [abs_le]
  cases round <;> cases sticky <;>
    simp only [Describes, ExtendedMantissa.roundedMantissa, ExtendedMantissa.accuracy,
      Accuracy.roundToNearestEven] at h ⊢
  · constructor <;> linarith
  · constructor <;> linarith
  · rcases Nat.mod_two_eq_zero_or_one m with even | odd
    · rw [even]
      push_cast
      constructor <;> linarith
    · rw [odd]
      push_cast
      constructor <;> linarith
  · push_cast
    constructor <;> linarith

theorem Describes.rounded_le {em : ExtendedMantissa} {v : ℚ} {n : Nat} (h : Describes em v)
    (below : v < n) : em.roundedMantissa ≤ n := by
  have near := abs_le.mp h.near
  have close : (em.roundedMantissa : ℚ) < (n + 1 : Nat) := by
    push_cast
    linarith
  exact Nat.lt_succ_iff.mp (by exact_mod_cast close)

theorem Describes.le_rounded {em : ExtendedMantissa} {v : ℚ} {n : Nat} (h : Describes em v)
    (above : n ≤ v) : n ≤ em.roundedMantissa := by
  have near := abs_le.mp h.near
  have close : (n : ℚ) < (em.roundedMantissa + 1 : Nat) := by
    push_cast
    linarith
  exact Nat.lt_succ_iff.mp (by exact_mod_cast close)

/-- An accuracy tells where `v` lies above `m`. -/
def Fits (m : Nat) (accuracy : Accuracy) (v : ℚ) : Prop :=
  Describes (.ofMantissaAndAccuracy m accuracy) v

theorem fits_exact (m : Nat) : Fits m .exact m := rfl

/-! ## The unit in the last place -/

/-- The exponent of a float that starts at the first bit of `m * 2 ^ e`. -/
def unit (m : Nat) (e : Int) : Int := Format.binary64.targetExponent (totalExponent m e)

theorem unit_eq (m : Nat) (e : Int) : unit m e = max (m.log2 + e - 52) (-1074) := by
  simp only [unit, Format.targetExponent, totalExponent, Format.mantissaBits, Format.minExponent]
  omega

/-- The form in which the model keeps a float: a full mantissa unless the exponent is least. -/
inductive Stands : UnpackedFloat → Sign → ℚ → Prop
  | zero (sign : Sign) : Stands (.zero sign) sign 0
  | finite (sign : Sign) {m : Nat} {e : Int} {pos : 0 < m} (small : m < 2 ^ 53)
      (low : -1074 ≤ e) (high : e ≤ 971) (full : m < 2 ^ 52 → e = -1074) :
      Stands (.finite sign m e pos) sign (m * 2 ^ e)

theorem shift_idle {m : Nat} {e : Int} (h : unit m e ≤ e) :
    shiftToTargetExponent .binary64 m e .exact = (⟨m, false, false⟩, e) := by
  have none : (unit m e - e).toNat = 0 := by omega
  rw [unit] at none
  simp only [shiftToTargetExponent, shiftToExponent, none]
  exact Prod.ext rfl (Int.add_zero e)

theorem shift_carry {e : Int} (low : -1074 ≤ e) :
    shiftToTargetExponent .binary64 (2 ^ 53) e .exact = (⟨2 ^ 52, false, false⟩, e + 1) := by
  have one : (unit (2 ^ 53) e - e).toNat = 1 := by
    rw [unit_eq, Nat.log2_two_pow]
    omega
  rw [unit] at one
  simp only [shiftToTargetExponent, shiftToExponent, one]
  rfl

theorem log2_lt_of_lt {m : Nat} (h : m < 2 ^ 53) : m.log2 < 53 := by
  by_cases zero : m = 0
  · rw [zero, Nat.log2_zero]
    omega
  · exact (Nat.log2_lt zero).mpr h

theorem Fits.floor {m : Nat} {accuracy : Accuracy} {v : ℚ} (h : Fits m accuracy v) :
    m ≤ v ∧ v < m + 1 := by
  have floor := Describes.floor h
  have mantissa : (ExtendedMantissa.ofMantissaAndAccuracy m accuracy).mantissa = m := by
    cases accuracy with
    | exact => rfl
    | inexact side => cases side <;> rfl
  rwa [mantissa] at floor

/-- Once the low bits are dropped, 53 are left at most. -/
theorem Fits.quotient_lt {m : Nat} {accuracy : Accuracy} {v : ℚ} {k : Nat} (h : Fits m accuracy v)
    (drop : m.log2 ≤ 52 + k) : v / 2 ^ k < (2 ^ 53 : Nat) := by
  have size : m + 1 ≤ 2 ^ (53 + k) := calc
    m + 1 ≤ 2 ^ (m.log2 + 1) := Nat.lt_log2_self
    _ ≤ 2 ^ (53 + k) := Nat.pow_le_pow_right (by omega) (by omega)
  have bound : v < 2 ^ 53 * 2 ^ k := calc
    v < m + 1 := h.floor.2
    _ ≤ 2 ^ (53 + k) := by exact_mod_cast size
    _ = 2 ^ 53 * 2 ^ k := pow_add _ _ _
  rw [div_lt_iff₀ (by positivity)]
  exact_mod_cast bound

/-- If no more than needed are dropped, 53 are left. -/
theorem Fits.le_quotient {m : Nat} {accuracy : Accuracy} {v : ℚ} {k : Nat} (h : Fits m accuracy v)
    (drop : m.log2 = 52 + k) : (2 ^ 52 : Nat) ≤ v / 2 ^ k := by
  have nonzero : m ≠ 0 := by
    rintro rfl
    rw [Nat.log2_zero] at drop
    omega
  have size : 2 ^ (52 + k) ≤ m := drop ▸ Nat.log2_self_le nonzero
  have bound : 2 ^ 52 * 2 ^ k ≤ v := calc
    (2 : ℚ) ^ 52 * 2 ^ k = 2 ^ (52 + k) := (pow_add _ _ _).symm
    _ ≤ m := by exact_mod_cast size
    _ ≤ v := h.floor.1
  rw [le_div_iff₀ (by positivity)]
  exact_mod_cast bound

/-- The last shift of a rounded mantissa only takes care of a carry. -/
theorem stands_carried {r : Nat} {t : Int} (sign : Sign) (low : -1074 ≤ t) (high : t ≤ 970)
    (small : r ≤ 2 ^ 53) (full : r < 2 ^ 52 → t = -1074) :
    Stands (let (final, exponent) := shiftToTargetExponent .binary64 r t .exact
        if h : final.mantissa = 0 then .zero sign
        else .finite sign final.mantissa exponent (Nat.pos_of_ne_zero h)) sign (r * 2 ^ t) := by
  rcases Nat.lt_or_eq_of_le small with small | carry
  · have size := log2_lt_of_lt small
    have idle : unit r t ≤ t := by
      rw [unit_eq]
      omega
    rw [shift_idle idle]
    by_cases zero : r = 0
    · subst zero
      rw [Nat.cast_zero, zero_mul]
      exact .zero sign
    · simp only [dif_neg zero]
      exact .finite sign small low (by omega) full
  · subst carry
    rw [shift_carry low]
    have value : ((2 ^ 53 : Nat) : ℚ) * 2 ^ t = ((2 ^ 52 : Nat) : ℚ) * 2 ^ (t + 1) := by
      rw [zpow_add_one₀ (by norm_num)]
      push_cast
      ring
    rw [value]
    have smaller : 2 ^ 52 < 2 ^ 53 := by decide
    exact .finite sign smaller (by omega) (by omega) fun few => absurd few (Nat.lt_irrefl _)

/-- Rounding `v * 2 ^ e` gives the nearest multiple of the unit in the last place, or one of two. -/
theorem stands_round {m : Nat} {e : Int} {accuracy : Accuracy} {v : ℚ} (sign : Sign)
    (fits : Fits m accuracy v) (enough : e ≤ unit m e) (high : unit m e ≤ 970) :
    ∃ r : Nat, Stands (roundWithAccuracy .binary64 sign m e accuracy) sign (r * 2 ^ unit m e) ∧
      |(r : ℚ) - v / 2 ^ (unit m e - e).toNat| ≤ 1 / 2 := by
  obtain ⟨k, drop⟩ : ∃ k, (unit m e - e).toNat = k := ⟨_, rfl⟩
  have low : -1074 ≤ unit m e := by rw [unit_eq]; omega
  have first : shiftToTargetExponent .binary64 m e accuracy =
      (ExtendedMantissa.ofMantissaAndAccuracy m accuracy >>> k, unit m e) := by
    have shifted : e + (unit m e - e).toNat = unit m e := by omega
    rw [← drop]
    exact Prod.ext rfl shifted
  have describes := fits.shiftRight k
  have below : v / 2 ^ k < (2 ^ 53 : Nat) := fits.quotient_lt (by rw [unit_eq] at drop; omega)
  have above (subnormal : unit m e ≠ -1074) : (2 ^ 52 : Nat) ≤ v / 2 ^ k :=
    fits.le_quotient (by rw [unit_eq] at drop enough subnormal; omega)
  generalize ExtendedMantissa.ofMantissaAndAccuracy m accuracy >>> k = em at first describes
  rw [drop, roundWithAccuracy, first]
  refine ⟨em.roundedMantissa, ?_, describes.near⟩
  refine stands_carried sign low high (describes.rounded_le below) fun few => ?_
  by_contra subnormal
  have many := describes.le_rounded (above subnormal)
  omega

end CopperTidy.Decimal
