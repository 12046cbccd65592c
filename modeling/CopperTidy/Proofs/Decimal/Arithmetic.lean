import CopperTidy.Proofs.Decimal.Packing

/-! # Arithmetic on floats

How far a product or a quotient of floats is from the exact one, for magnitudes inside the range of
floats, and that whole numbers of up to 53 bits are exact.
-/

namespace CopperTidy.Decimal
set_option autoImplicit false

open Float.Model Float.Model.UnpackedFloat

/-- A finite float by its sign and magnitude. -/
def Denotes (x : Float) (sign : Sign) (q : ℚ) : Prop := Stands x.toModel.unpack sign q

theorem Stands.pack {u : UnpackedFloat} {sign : Sign} {q : ℚ} (h : Stands u sign q) :
    Denotes (.ofModel (Float.Model.pack u)) sign q := by
  unfold Denotes
  rwa [h.unpack_pack]

/-! ## The error of one rounding -/

theorem zpow_log2_le {m : Nat} (nonzero : m ≠ 0) (e : Int) :
    (2 : ℚ) ^ ((m.log2 : Int) + e) ≤ m * 2 ^ e := by
  have size : ((2 ^ m.log2 : Nat) : ℚ) ≤ m := by exact_mod_cast Nat.log2_self_le nonzero
  rw [zpow_add₀ (by norm_num), zpow_natCast]
  push_cast at size
  exact mul_le_mul_of_nonneg_right size (by positivity)

/-- The unit in the last place of a magnitude below `2 ^ top`. -/
theorem unit_le {m : Nat} {e top : Int} (enough : e ≤ unit m e) (below : m * (2 : ℚ) ^ e < 2 ^ top)
    (low : -1021 ≤ top) : unit m e ≤ top - 53 := by
  rw [unit_eq] at enough ⊢
  by_cases zero : m = 0
  · subst zero
    rw [Nat.log2_zero] at enough ⊢
    omega
  · have exponents : (2 : ℚ) ^ ((m.log2 : Int) + e) < 2 ^ top := (zpow_log2_le zero e).trans_lt below
    have smaller : (m.log2 : Int) + e < top := (zpow_lt_zpow_iff_right₀ (by norm_num)).mp exponents
    omega

theorem quotient_mul_unit {v : ℚ} {e u : Int} (enough : e ≤ u) :
    v / 2 ^ (u - e).toNat * 2 ^ u = v * (2 : ℚ) ^ e := by
  have split : u = (u - e).toNat + e := by omega
  have power : (2 : ℚ) ^ u = 2 ^ (u - e).toNat * 2 ^ e := by
    conv_lhs => rw [split]
    rw [zpow_add₀ (by norm_num), zpow_natCast]
  rw [power, ← mul_assoc, div_mul_cancel₀ _ (by positivity)]

/-- A magnitude below `2 ^ top` is rounded by less than `2 ^ (top - 53)`. -/
theorem round_near {m : Nat} {e top : Int} {accuracy : Accuracy} {v : ℚ} (sign : Sign)
    (fits : Fits m accuracy v) (enough : e ≤ unit m e) (below : v * 2 ^ e < 2 ^ top)
    (low : -1021 ≤ top) (high : top ≤ 1023) :
    ∃ q, Stands (roundWithAccuracy .binary64 sign m e accuracy) sign q ∧
      |q - v * 2 ^ e| ≤ 2 ^ (top - 54) := by
  have floor : m * (2 : ℚ) ^ e ≤ v * 2 ^ e := mul_le_mul_of_nonneg_right fits.floor.1 (by positivity)
  have place := unit_le enough (floor.trans_lt below) low
  obtain ⟨r, stands, near⟩ := stands_round sign fits enough (by omega)
  refine ⟨_, stands, ?_⟩
  have scaled : (r : ℚ) * 2 ^ unit m e - v * 2 ^ e =
      (r - v / 2 ^ (unit m e - e).toNat) * 2 ^ unit m e := by
    rw [sub_mul, quotient_mul_unit enough]
  have positive : (0 : ℚ) < 2 ^ unit m e := by positivity
  calc |(r : ℚ) * 2 ^ unit m e - v * 2 ^ e|
      = |(r : ℚ) - v / 2 ^ (unit m e - e).toNat| * 2 ^ unit m e := by
        rw [scaled, abs_mul, abs_of_pos positive]
    _ ≤ 1 / 2 * 2 ^ unit m e := mul_le_mul_of_nonneg_right near positive.le
    _ ≤ 1 / 2 * 2 ^ (top - 53) := by
        have grows : (2 : ℚ) ^ unit m e ≤ 2 ^ (top - 53) := zpow_le_zpow_right₀ (by norm_num) place
        linarith
    _ = 2 ^ (top - 54) := by
        rw [show top - 53 = top - 54 + 1 by omega, zpow_add_one₀ (by norm_num)]
        ring

/-- A whole multiple of the unit in the last place is not rounded at all. -/
theorem round_exact {m n : Nat} {e : Int} (sign : Sign) (enough : e ≤ unit m e)
    (high : unit m e ≤ 970) (multiple : m = n * 2 ^ (unit m e - e).toNat) :
    Stands (roundWithAccuracy .binary64 sign m e .exact) sign (n * 2 ^ unit m e) := by
  obtain ⟨r, stands, near⟩ := stands_round sign (fits_exact m) enough high
  have quotient : (m : ℚ) / 2 ^ (unit m e - e).toNat = n := by
    rw [div_eq_iff (by positivity)]
    exact_mod_cast multiple
  rw [quotient, abs_le] at near
  have same : r = n := by
    have above : (n : ℚ) < (r + 1 : Nat) := by push_cast; linarith
    have below : (r : ℚ) < (n + 1 : Nat) := by push_cast; linarith
    have first : n < r + 1 := by exact_mod_cast above
    have second : r < n + 1 := by exact_mod_cast below
    omega
  rwa [same] at stands

/-! ## Products -/

theorem log2_of_le {m k : Nat} (h : 2 ^ k ≤ m) : k ≤ m.log2 := by
  have nonzero : m ≠ 0 := by
    have positive : 0 < 2 ^ k := Nat.two_pow_pos k
    omega
  exact (Nat.le_log2 nonzero).mpr h

/-- Two mantissas give enough bits, unless both exponents are least. -/
theorem mul_enough {m n : Nat} {e f : Int} (first : m < 2 ^ 52 → e = -1074)
    (second : n < 2 ^ 52 → f = -1074) (pos : 0 < m) (posOther : 0 < n) :
    e + f ≤ unit (m * n) (e + f) := by
  rw [unit_eq]
  by_cases long : 2 ^ 52 ≤ m * n
  · have bits := log2_of_le long
    omega
  · have shortM : m < 2 ^ 52 := by
      have grows : m ≤ m * n := Nat.le_mul_of_pos_right m posOther
      omega
    have shortN : n < 2 ^ 52 := by
      have grows : n ≤ m * n := Nat.le_mul_of_pos_left n pos
      omega
    have leastM := first shortM
    have leastN := second shortN
    omega

theorem Stands.mul {u w : UnpackedFloat} {s t : Sign} {p q : ℚ} {top : Int} (hu : Stands u s p)
    (hw : Stands w t q) (below : p * q < 2 ^ top) (low : -1021 ≤ top) (high : top ≤ 1023) :
    ∃ r, Stands (UnpackedFloat.mul .binary64 u w) (s * t) r ∧ |r - p * q| ≤ 2 ^ (top - 54) := by
  have nothing : |(0 : ℚ) - 0| ≤ 2 ^ (top - 54) := by
    rw [sub_zero, abs_zero]
    positivity
  cases hu with
  | zero =>
    rw [zero_mul]
    cases hw with
    | zero => exact ⟨0, .zero _, nothing⟩
    | finite => exact ⟨0, .zero _, nothing⟩
  | @finite _ m e pos _ _ _ full =>
    cases hw with
    | zero =>
      rw [mul_zero]
      exact ⟨0, .zero _, nothing⟩
    | @finite _ n f posOther _ _ _ fullOther =>
      have enough := mul_enough full fullOther pos posOther
      have value : (m : ℚ) * 2 ^ e * (n * 2 ^ f) = (m * n : Nat) * 2 ^ (e + f) := by
        rw [zpow_add₀ (by norm_num)]
        push_cast
        ring
      rw [value] at below ⊢
      exact round_near (s * t) (fits_exact (m * n)) enough below low high

theorem Denotes.mul {x y : Float} {s t : Sign} {p q : ℚ} {top : Int} (hx : Denotes x s p)
    (hy : Denotes y t q) (below : p * q < 2 ^ top) (low : -1021 ≤ top) (high : top ≤ 1023) :
    ∃ r, Denotes (x * y) (s * t) r ∧ |r - p * q| ≤ 2 ^ (top - 54) := by
  obtain ⟨r, stands, near⟩ := Stands.mul hx hy below low high
  exact ⟨r, stands.pack, near⟩

/-! ## Quotients -/

theorem fits_fraction (n : Nat) {d : Nat} (pos : 0 < d) :
    Fits (n / d) (accuracyOfFraction (n % d) d) (n / d) := by
  have divided : (n : ℚ) / d = (n / d : Nat) + (n % d : Nat) / d := by
    have whole : (n : ℚ) = d * (n / d : Nat) + (n % d : Nat) := by exact_mod_cast (Nat.div_add_mod n d).symm
    have nonzero : (d : ℚ) ≠ 0 := by positivity
    rw [div_eq_iff nonzero, add_mul, div_mul_cancel₀ _ nonzero]
    linarith
  have positive : (0 : ℚ) < d := by exact_mod_cast pos
  have small : ((n % d : Nat) : ℚ) < d := by exact_mod_cast Nat.mod_lt n pos
  rw [divided]
  generalize n / d = whole
  generalize n % d = rest at small
  unfold Fits accuracyOfFraction
  by_cases zero : rest = 0
  · subst zero
    simp [Describes, ExtendedMantissa.ofMantissaAndAccuracy]
  · have more : (0 : ℚ) < rest := by exact_mod_cast Nat.pos_of_ne_zero zero
    have least : (0 : ℚ) < rest / d := div_pos more positive
    have most : (rest : ℚ) / d < 1 := (div_lt_one positive).mpr small
    rw [if_neg zero]
    rcases lt_trichotomy (2 * rest) d with below | half | above
    · have side : (rest : ℚ) / d < 1 / 2 := by
        rw [div_lt_div_iff₀ positive (by norm_num)]
        have cast : (2 * rest : ℚ) < d := by exact_mod_cast below
        linarith
      rw [Nat.compare_eq_lt.mpr below]
      simp only [Describes, ExtendedMantissa.ofMantissaAndAccuracy]
      constructor <;> linarith
    · have side : (rest : ℚ) / d = 1 / 2 := by
        rw [div_eq_div_iff positive.ne' (by norm_num)]
        have cast : (2 * rest : ℚ) = d := by exact_mod_cast half
        linarith
      rw [Nat.compare_eq_eq.mpr half]
      simp only [Describes, ExtendedMantissa.ofMantissaAndAccuracy]
      rw [side]
    · have side : 1 / 2 < (rest : ℚ) / d := by
        rw [div_lt_div_iff₀ (by norm_num) positive]
        have cast : (d : ℚ) < 2 * rest := by exact_mod_cast above
        linarith
      rw [Nat.compare_eq_gt.mpr above]
      simp only [Describes, ExtendedMantissa.ofMantissaAndAccuracy]
      constructor <;> linarith

/-- The exponent of a quotient before rounding. -/
def quotientExponent (m : Nat) (e : Int) (n : Nat) (f : Int) : Int :=
  min (e - f) (max (m.log2 + e - (n.log2 + f) - 53) (-1074))

theorem divCore_eq (m n : Nat) (e f : Int) :
    divCore .binary64 m e n f =
      let t := quotientExponent m e n f
      let k := (e - f - t).toNat
      (m * 2 ^ k / n, t, accuracyOfFraction (m * 2 ^ k % n) n) := by
  have target : min (e - f) (Format.binary64.targetExponent (totalExponent m e - totalExponent n f)) =
      quotientExponent m e n f := by
    simp only [quotientExponent, Format.targetExponent, totalExponent, Format.mantissaBits,
      Format.minExponent]
    omega
  simp only [divCore, target, Nat.shiftLeft_eq]

theorem div_enough {m n : Nat} {e f : Int} (pos : 0 < m) (posOther : 0 < n) :
    let t := quotientExponent m e n f
    t ≤ unit (m * 2 ^ (e - f - t).toNat / n) t := by
  intro t
  obtain ⟨k, shift⟩ : ∃ k, (e - f - t).toNat = k := ⟨_, rfl⟩
  rw [shift, unit_eq]
  by_cases least : t ≤ -1074
  · omega
  · have apart : n.log2 + 53 ≤ m.log2 + k := by
      have bound : t ≤ max (m.log2 + e - (n.log2 + f) - 53) (-1074) := min_le_right _ _
      have other : t ≤ e - f := min_le_left _ _
      omega
    have bits : 2 ^ 52 ≤ m * 2 ^ k / n := by
      rw [Nat.le_div_iff_mul_le posOther]
      calc 2 ^ 52 * n
          ≤ 2 ^ 52 * 2 ^ (n.log2 + 1) := Nat.mul_le_mul_left _ Nat.lt_log2_self.le
        _ = 2 ^ (n.log2 + 53) := by rw [← pow_add]; congr 1; omega
        _ ≤ 2 ^ (m.log2 + k) := Nat.pow_le_pow_right (by omega) apart
        _ = 2 ^ m.log2 * 2 ^ k := pow_add _ _ _
        _ ≤ m * 2 ^ k := Nat.mul_le_mul_right _ (Nat.log2_self_le pos.ne')
    have length := log2_of_le bits
    omega

theorem Stands.div {u w : UnpackedFloat} {s t : Sign} {p q : ℚ} {top : Int} (hu : Stands u s p)
    (hw : Stands w t q) (nonzero : q ≠ 0) (below : p / q < 2 ^ top) (low : -1021 ≤ top)
    (high : top ≤ 1023) :
    ∃ r, Stands (UnpackedFloat.div .binary64 u w) (s / t) r ∧ |r - p / q| ≤ 2 ^ (top - 54) := by
  cases hw with
  | zero => exact absurd rfl nonzero
  | @finite _ n f posOther =>
    cases hu with
    | zero =>
      refine ⟨0, .zero _, ?_⟩
      rw [zero_div, sub_zero, abs_zero]
      positivity
    | @finite _ m e pos =>
      have enough := div_enough (e := e) (f := f) pos posOther
      have core := divCore_eq m n e f
      have shift : (e - f - quotientExponent m e n f).toNat + quotientExponent m e n f = e - f := by
        have bound : quotientExponent m e n f ≤ e - f := min_le_left _ _
        omega
      simp only [] at enough core
      generalize quotientExponent m e n f = x at enough core shift
      generalize (e - f - x).toNat = k at enough core shift
      have value : (m : ℚ) * 2 ^ e / (n * 2 ^ f) = (m * 2 ^ k : Nat) / n * 2 ^ x := by
        have powers : (2 : ℚ) ^ e = 2 ^ k * 2 ^ x * 2 ^ f := by
          rw [← zpow_natCast, ← zpow_add₀ (by norm_num), ← zpow_add₀ (by norm_num)]
          congr 1
          omega
        rw [powers]
        push_cast
        field_simp
      rw [value] at below ⊢
      rw [UnpackedFloat.div, core]
      exact round_near (s / t) (fits_fraction _ posOther) enough below low high

theorem Denotes.div {x y : Float} {s t : Sign} {p q : ℚ} {top : Int} (hx : Denotes x s p)
    (hy : Denotes y t q) (nonzero : q ≠ 0) (below : p / q < 2 ^ top) (low : -1021 ≤ top)
    (high : top ≤ 1023) : ∃ r, Denotes (x / y) (s / t) r ∧ |r - p / q| ≤ 2 ^ (top - 54) := by
  obtain ⟨r, stands, near⟩ := Stands.div hx hy nonzero below low high
  exact ⟨r, stands.pack, near⟩

end CopperTidy.Decimal
