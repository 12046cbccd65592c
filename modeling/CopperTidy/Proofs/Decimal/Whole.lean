import CopperTidy.Proofs.Decimal.Arithmetic

/-! # Whole numbers, signs and order

Whole numbers of up to 53 bits and small powers of ten are floats themselves. Floats without a sign
are ordered as their magnitudes.
-/

namespace CopperTidy.Decimal
set_option autoImplicit false

open Float.Model Float.Model.UnpackedFloat

/-! ## Whole numbers -/

theorem log2_shifted {n : Nat} (nonzero : n ≠ 0) (k : Nat) : (n * 2 ^ k).log2 = n.log2 + k := by
  induction k with
  | zero => rw [pow_zero, Nat.mul_one, Nat.add_zero]
  | succ k ih =>
    have positive : n * 2 ^ k ≠ 0 := Nat.mul_ne_zero nonzero (Nat.two_pow_pos k).ne'
    rw [pow_succ', Nat.mul_left_comm, Nat.log2_two_mul positive, ih, Nat.add_assoc]

theorem stands_ofNat {n : Nat} (small : n < 2 ^ 53) :
    Stands (UnpackedFloat.ofNat .binary64 n) .positive n := by
  by_cases zero : n = 0
  · subst zero
    rw [Nat.cast_zero]
    exact .zero .positive
  · have size := log2_lt_of_lt small
    obtain ⟨k, shift⟩ : ∃ k, (-unit n 0).toNat = k := ⟨_, rfl⟩
    have least : unit n 0 = -(k : Int) := by
      rw [unit_eq] at shift ⊢
      omega
    have again : unit (n * 2 ^ k) (-(k : Int)) = -(k : Int) := by
      rw [unit_eq] at least ⊢
      rw [log2_shifted zero]
      omega
    have rounded : UnpackedFloat.ofNat .binary64 n =
        roundWithAccuracy .binary64 .positive (n * 2 ^ k) (-(k : Int)) .exact := by
      have above : compare (n : Int) 0 = .gt := Int.compare_eq_gt.mpr (by omega)
      rw [unit] at shift
      simp only [UnpackedFloat.ofNat, UnpackedFloat.ofInt, UnpackedFloat.normalize, above,
        Int.toNat_natCast, UnpackedFloat.round, decreaseExponent, shift, Nat.shiftLeft_eq,
        Int.zero_sub]
    have multiple : n * 2 ^ k =
        n * 2 ^ k * 2 ^ (unit (n * 2 ^ k) (-(k : Int)) - -(k : Int)).toNat := by
      rw [again, Int.sub_self, Int.toNat_zero, pow_zero, Nat.mul_one]
    have stands := round_exact .positive again.ge (by omega) multiple
    have value : ((n * 2 ^ k : Nat) : ℚ) * 2 ^ (-(k : Int)) = n := by
      rw [zpow_neg, zpow_natCast]
      push_cast
      rw [mul_assoc, mul_inv_cancel₀ (by positivity), mul_one]
    rw [again, value] at stands
    rwa [rounded]

theorem denotes_toFloat {n : Nat} (small : n < 2 ^ 53) : Denotes n.toUInt64.toFloat .positive n := by
  have whole : n.toUInt64.toNat = n := Nat.mod_eq_of_lt (by omega)
  show Stands (Float.Model.pack (UnpackedFloat.ofNat .binary64 n.toUInt64.toNat)).unpack _ _
  rw [whole]
  exact (stands_ofNat small).pack

theorem Denotes.mul_one {x : Float} {sign : Sign} {q : ℚ} (h : Denotes x sign q)
    (below : q < 2 ^ (1023 : Int)) :
    Denotes (x * Float.ofBits 0x3FF0000000000000) sign q := by
  have one : (Float.ofBits 0x3FF0000000000000).toModel.unpack =
      .finite .positive (2 ^ 52) (-52) (by decide) := rfl
  have keeps : sign * Sign.positive = sign := by cases sign <;> rfl
  suffices Stands (UnpackedFloat.mul .binary64 x.toModel.unpack
      (Float.ofBits 0x3FF0000000000000).toModel.unpack) sign q from this.pack
  rw [one]
  unfold Denotes at h
  generalize x.toModel.unpack = u at h
  cases h with
  | zero =>
    rw [UnpackedFloat.mul, keeps]
    exact .zero sign
  | @finite _ m e pos small low high full =>
    have size := log2_lt_of_lt small
    have bits := log2_shifted pos.ne' 52
    have place : unit (m * 2 ^ 52) (e + -52) = e := by
      rw [unit_eq, bits]
      by_cases short : m < 2 ^ 52
      · have least := full short
        omega
      · have leading := log2_of_le (Nat.le_of_not_lt short)
        omega
    have enough : e + -52 ≤ unit (m * 2 ^ 52) (e + -52) := by omega
    have value : ((m * 2 ^ 52 : Nat) : ℚ) * 2 ^ (e + -52) = m * 2 ^ e := by
      rw [zpow_add₀ (by norm_num)]
      push_cast
      ring
    have bounded := unit_le enough (value.trans_lt below) (by omega)
    have dropped : m * 2 ^ 52 = m * 2 ^ (unit (m * 2 ^ 52) (e + -52) - (e + -52)).toNat := by
      congr 2
      omega
    have stands := round_exact sign enough (by omega) dropped
    rw [place] at stands
    rw [UnpackedFloat.mul, keeps]
    exact stands

theorem denotes_ofNat {n : Nat} (small : n < 2 ^ 53) : Denotes (Float.ofNat n) .positive n := by
  have fast : Float.ofNat n = n.toUInt64.toFloat * Float.ofBits 0x3FF0000000000000 := by
    show Float.ofScientific _ _ _ = _
    unfold Float.ofScientific
    rw [dif_pos ⟨small, by decide⟩]
    rfl
  have below : (n : ℚ) < 2 ^ (1023 : Int) := calc
    (n : ℚ) < 2 ^ (53 : Int) := by exact_mod_cast small
    _ ≤ 2 ^ (1023 : Int) := zpow_le_zpow_right₀ (by norm_num) (by norm_num)
  rw [fast]
  exact (denotes_toFloat small).mul_one below

theorem denotes_of_parts {x : Float} {m : Nat} {e : Int} (h : parts x = .finite false m e) :
    Denotes x .positive (m * 2 ^ e) := by
  obtain ⟨sign, q, stands⟩ := stands_unpack _ ((parts_eq x).symm.trans h)
  obtain ⟨n, f, parts, value⟩ := Stands.parts stands
  obtain ⟨positive, same, place⟩ := Parts.finite.inj (h.symm.trans parts)
  subst same place value
  cases sign with
  | negative => cases positive
  | positive => exact stands

/-- Small powers of ten, as the reader of floats has them. -/
theorem parts_power {k : Nat} (h : k < Float.exactlyRepresentablePowersOfTen.size) (few : k < 7) :
    parts Float.exactlyRepresentablePowersOfTen[k] =
      .finite false (10 ^ k * 2 ^ (52 - (10 ^ k).log2)) ((10 ^ k).log2 - 52) := by
  revert k
  decide +kernel

theorem denotes_power {k : Nat} (h : k < Float.exactlyRepresentablePowersOfTen.size) (few : k < 7) :
    Denotes Float.exactlyRepresentablePowersOfTen[k] .positive (10 ^ k) := by
  have size : (10 ^ k).log2 < 53 := by
    refine log2_lt_of_lt ?_
    have most : 10 ^ k ≤ 10 ^ 6 := Nat.pow_le_pow_right (by omega) (by omega)
    omega
  have denotes := denotes_of_parts (parts_power h few)
  obtain ⟨s, shift⟩ : ∃ s, 52 - (10 ^ k).log2 = s := ⟨_, rfl⟩
  have place : ((10 ^ k).log2 : Int) - 52 = -s := by omega
  have value : ((10 ^ k * 2 ^ s : Nat) : ℚ) * 2 ^ (-(s : Int)) = 10 ^ k := by
    rw [zpow_neg, zpow_natCast]
    push_cast
    rw [mul_assoc, mul_inv_cancel₀ (by positivity), mul_one]
  rwa [shift, place, value] at denotes

theorem Denotes.neg {x : Float} {sign : Sign} {q : ℚ} (h : Denotes x sign q) :
    Denotes (-x) (-sign) q := by
  suffices Stands x.toModel.unpack.neg (-sign) q from this.pack
  unfold Denotes at h
  generalize x.toModel.unpack = u at h
  cases h with
  | zero => exact .zero _
  | finite _ small low high full => exact .finite _ small low high full

theorem Denotes.abs {x : Float} {sign : Sign} {q : ℚ} (h : Denotes x sign q) :
    Denotes x.abs .positive q := by
  suffices Stands x.toModel.unpack.abs .positive q from this.pack
  unfold Denotes at h
  generalize x.toModel.unpack = u at h
  cases h with
  | zero => exact .zero _
  | finite _ small low high full => exact .finite _ small low high full

/-- The sign of an integer; zero has none. -/
def signOf (n : Int) : Sign := if n < 0 then .negative else .positive

theorem denotes_ofInt {n : Int} (small : n.natAbs < 2 ^ 53) :
    Denotes (Float.ofInt n) (signOf n) n.natAbs := by
  cases n with
  | ofNat n => exact denotes_ofNat small
  | negSucc n =>
    have next : n + 1 < 2 ^ 53 := small
    have sign : signOf (.negSucc n) = .negative := if_pos (Int.negSucc_lt_zero n)
    rw [sign]
    exact (denotes_ofNat next).neg

/-! ## Order -/

theorem magnitude_lt {m n : Nat} {e f : Int} (small : m < 2 ^ 53) (full : n < 2 ^ 52 → f = -1074)
    (low : -1074 ≤ e) (h : e < f) : m * (2 : ℚ) ^ e < n * 2 ^ f := by
  have leading : 2 ^ 52 ≤ n := by
    by_contra short
    have least := full (Nat.lt_of_not_le short)
    omega
  have first : (m : ℚ) < 2 ^ 53 := by exact_mod_cast small
  have second : (2 : ℚ) ^ 52 ≤ n := by exact_mod_cast leading
  calc (m : ℚ) * 2 ^ e
      < 2 ^ 53 * 2 ^ e := mul_lt_mul_of_pos_right first (by positivity)
    _ = 2 ^ 52 * 2 ^ (e + 1) := by
        rw [zpow_add_one₀ (by norm_num)]
        ring
    _ ≤ 2 ^ 52 * 2 ^ f :=
        mul_le_mul_of_nonneg_left (zpow_le_zpow_right₀ (by norm_num) (by omega)) (by positivity)
    _ ≤ n * 2 ^ f := mul_le_mul_of_nonneg_right second (by positivity)

theorem Denotes.lt_iff {x y : Float} {p q : ℚ} (hx : Denotes x .positive p)
    (hy : Denotes y .positive q) : x < y ↔ p < q := by
  have compared : x < y ↔ x.toModel.unpack.compare y.toModel.unpack = some .lt := by
    show decide (x.toModel < y.toModel) = true ↔ _
    rw [decide_eq_true_iff]
    exact beq_iff_eq
  rw [compared]
  unfold Denotes at hx hy
  generalize x.toModel.unpack = u at hx
  generalize y.toModel.unpack = w at hy
  cases hx with
  | zero =>
    cases hy with
    | zero => simp [UnpackedFloat.compare]
    | @finite _ n f pos =>
      have positive : (0 : ℚ) < n * 2 ^ f := by positivity
      simp [UnpackedFloat.compare, positive]
  | @finite _ m e pos small low _ full =>
    have positive : (0 : ℚ) < m * 2 ^ e := by positivity
    cases hy with
    | zero => simp [UnpackedFloat.compare, positive.le]
    | @finite _ n f posOther smallOther lowOther _ fullOther =>
      simp only [UnpackedFloat.compare, Option.some.injEq]
      rcases lt_trichotomy e f with below | same | above
      · have less := magnitude_lt small fullOther low below
        simp [Int.compare_eq_lt.mpr below, less]
      · subst same
        have power : (0 : ℚ) < 2 ^ e := by positivity
        rw [mul_lt_mul_iff_left₀ power, Nat.cast_lt]
        rw [Int.compare_eq_eq.mpr rfl, Ordering.eq_then, Nat.compare_eq_lt]
      · have more := magnitude_lt smallOther full lowOther above
        simp [Int.compare_eq_gt.mpr above, more.le]

end CopperTidy.Decimal
