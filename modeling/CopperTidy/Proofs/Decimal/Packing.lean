import CopperTidy.Decimal.Binary
import CopperTidy.Proofs.Decimal.Rounding

/-! # Floats and their bits

`parts` takes a float apart as the model of floats does, and what the model packs in its own form it
finds again. So the sign and the magnitude of a float can be read off either.
-/

namespace CopperTidy.Decimal
set_option autoImplicit false

open Float.Model Float.Model.UnpackedFloat

/-! ## Taking apart -/

def isNegative : Sign → Bool
  | .negative => true
  | .positive => false

def partsOf : UnpackedFloat → Parts
  | .notANumber => .nan
  | .infinity sign => .infinite (isNegative sign)
  | .zero sign => .finite (isNegative sign) 0 (-1074)
  | .finite sign m e _ => .finite (isNegative sign) m e

theorem toNat_unpackExponent (b : BitVec Format.binary64.numBits) :
    (unpackExponent b).toNat = b.toNat / 2 ^ 52 % 2 ^ 11 := by
  simp [unpackExponent, BitVec.extractLsb, Nat.shiftRight_eq_div_pow]

theorem toNat_unpackMantissa (b : BitVec Format.binary64.numBits) :
    (unpackMantissa b).toNat = b.toNat % 2 ^ 52 := by
  simp [unpackMantissa, BitVec.extractLsb]

theorem isNegative_unpackSign (b : BitVec Format.binary64.numBits) :
    isNegative (Sign.ofBitVec (unpackSign b)) = b.toNat.testBit 63 := by
  have bit : (unpackSign b).toNat = b.toNat / 2 ^ 63 % 2 := by
    simp [unpackSign, BitVec.extractLsb, Nat.shiftRight_eq_div_pow]
  rw [Nat.testBit_eq_decide_div_mod_eq, ← bit]
  rcases BitVec.eq_zero_or_eq_one (unpackSign b) with zero | one
  · rw [zero]
    rfl
  · rw [one]
    rfl

section Fields

variable {b : BitVec Format.binary64.numBits}

theorem unpackExponent_eq_iff {e : BitVec 11} :
    unpackExponent b = e ↔ b.toNat / 2 ^ 52 % 2 ^ 11 = e.toNat := by
  rw [← toNat_unpackExponent, ← BitVec.toNat_inj]

theorem unpackMantissa_eq_iff {m : BitVec 52} :
    unpackMantissa b = m ↔ b.toNat % 2 ^ 52 = m.toNat := by
  rw [← toNat_unpackMantissa, ← BitVec.toNat_inj]

theorem unpackExponent_eq_top : unpackExponent b = -1#11 ↔ b.toNat / 2 ^ 52 % 2 ^ 11 = 2047 :=
  unpackExponent_eq_iff

theorem unpackExponent_eq_zero : unpackExponent b = 0#11 ↔ b.toNat / 2 ^ 52 % 2 ^ 11 = 0 :=
  unpackExponent_eq_iff

theorem unpackMantissa_eq_zero : unpackMantissa b = 0#52 ↔ b.toNat % 2 ^ 52 = 0 :=
  unpackMantissa_eq_iff

end Fields

theorem toNat_append_one (m : BitVec 52) : (1#1 ++ m).toNat = 2 ^ 52 + m.toNat := by
  rw [BitVec.toNat_append, ← Nat.shiftLeft_add_eq_or_of_lt m.isLt]
  rfl

/-- The bits of a float, taken apart by hand and by the model. -/
theorem parts_eq (x : Float) : parts x = partsOf x.toModel.unpack := by
  unfold parts Float.Model.unpack UnpackedFloat.unpack
  have bits : x.toBits.toNat = x.toModel.toBits.toBitVec.toNat := rfl
  generalize x.toModel.toBits.toBitVec = b at bits
  have sign := isNegative_unpackSign b
  have exponent := toNat_unpackExponent b
  have mantissa := toNat_unpackMantissa b
  have top := unpackExponent_eq_top (b := b)
  have bottom := unpackExponent_eq_zero (b := b)
  have none := unpackMantissa_eq_zero (b := b)
  have bias : Format.binary64.exponentBias = 1023 := rfl
  simp only [bits, Nat.one_shiftLeft]
  split
  · next e =>
    rw [if_pos (top.mpr e)]
    split
    · next m => rw [if_pos (none.mpr m), partsOf, sign]
    · next m => rw [if_neg (mt none.mp m), partsOf]
  · next e =>
    rw [if_neg (mt top.mp e)]
    split
    · next zero =>
      rw [if_pos (bottom.mpr zero)]
      by_cases m : b.toNat % 2 ^ 52 = 0
      · rw [dif_pos (none.mpr m), partsOf, sign, m]
      · rw [dif_neg (mt none.mp m), partsOf, sign, mantissa, exponent, zero, bias]
        rfl
    · next normal =>
      rw [if_neg (mt bottom.mp normal), partsOf, sign, toNat_append_one, mantissa, exponent, bias]
      congr 1

theorem Stands.parts {x : Float} {sign : Sign} {q : ℚ} (h : Stands x.toModel.unpack sign q) :
    ∃ m e, parts x = .finite (isNegative sign) m e ∧ q = m * 2 ^ e := by
  rw [parts_eq]
  generalize x.toModel.unpack = u at h
  cases h with
  | zero => exact ⟨0, -1074, rfl, by rw [Nat.cast_zero, zero_mul]⟩
  | @finite _ m e => exact ⟨m, e, rfl, rfl⟩

theorem stands_unpack (b : BitVec Format.binary64.numBits) {negative : Bool} {m : Nat} {e : Int}
    (h : partsOf (UnpackedFloat.unpack .binary64 b) = .finite negative m e) :
    ∃ sign q, Stands (UnpackedFloat.unpack .binary64 b) sign q := by
  have exponent := toNat_unpackExponent b
  have top := unpackExponent_eq_top (b := b)
  have bottom := unpackExponent_eq_zero (b := b)
  have bias : Format.binary64.exponentBias = 1023 := rfl
  have width : Format.binary64.mantissaBitsWithoutImplicit = 52 := rfl
  have size : (unpackMantissa b).toNat < 2 ^ 52 := (unpackMantissa b).isLt
  unfold UnpackedFloat.unpack at h ⊢
  by_cases special : unpackExponent b = -1#11
  · rw [if_pos special] at h
    split at h <;> cases h
  rw [if_neg special]
  by_cases least : unpackExponent b = 0#11
  · rw [if_pos least]
    split
    · exact ⟨_, _, .zero _⟩
    · rw [exponent, bottom.mp least, bias]
      refine ⟨_, _, .finite _ ?_ ?_ ?_ fun _ => ?_⟩
      · omega
      · omega
      · omega
      · omega
  · rw [if_neg least, exponent, bias]
    have low := mt bottom.mpr least
    have high := mt top.mpr special
    refine ⟨_, _, .finite _ ?_ ?_ ?_ fun few => ?_⟩
    · rw [toNat_append_one]
      omega
    · omega
    · omega
    · rw [toNat_append_one] at few
      omega

theorem stands_of_isFinite {x : Float} (h : isFinite x = true) :
    ∃ sign q, Stands x.toModel.unpack sign q := by
  rw [isFinite, parts_eq] at h
  split at h
  · next found => exact stands_unpack _ found
  · cases h

/-! ## Packing -/

/-- A mantissa with its leading bit, under an exponent between the extremes. -/
theorem unpack_normal {sign : Sign} {e : BitVec 11} {m : BitVec 52} {n : Nat} {x : Int}
    (pos : 0 < n) (low : 0 < e.toNat) (high : e.toNat < 2047) (whole : 2 ^ 52 + m.toNat = n)
    (place : x = (e.toNat : Int) - 1075) :
    UnpackedFloat.unpack .binary64 (packComponents .binary64 sign e m) = .finite sign n x pos := by
  have notTop : e ≠ -1#11 := by
    rintro rfl
    exact absurd high (by decide)
  have notZero : e ≠ 0#11 := by
    rintro rfl
    exact absurd low (by decide)
  unfold UnpackedFloat.unpack
  simp only [unpackExponent_packComponents, unpackMantissa_packComponents,
    unpackSign_packComponents, Sign.ofBitVec_toBitVec]
  rw [if_neg notTop, if_neg notZero]
  subst whole place
  congr 1
  exact toNat_append_one m

/-- A mantissa without it, under the least exponent. -/
theorem unpack_subnormal {sign : Sign} {m : BitVec 52} {n : Nat} {x : Int} (pos : 0 < n)
    (whole : m.toNat = n) (place : x = -1074) :
    UnpackedFloat.unpack .binary64 (packComponents .binary64 sign 0#11 m) =
      .finite sign n x pos := by
  have notTop : 0#11 ≠ -1#11 := by decide
  have notZero : m ≠ 0#52 := by
    rintro rfl
    exact absurd whole pos.ne
  unfold UnpackedFloat.unpack
  simp only [unpackExponent_packComponents, unpackMantissa_packComponents,
    unpackSign_packComponents, Sign.ofBitVec_toBitVec]
  rw [if_neg notTop, if_pos trivial, dif_neg notZero]
  subst whole place
  rfl

theorem Stands.unpack_pack {u : UnpackedFloat} {sign : Sign} {q : ℚ} (h : Stands u sign q) :
    (Float.Model.pack u).unpack = u := by
  cases h with
  | zero => exact unpack_packedZero
  | @finite _ m e pos small low high full =>
    have bias : Format.binary64.exponentBias = 1023 := rfl
    have width : Format.binary64.mantissaBitsWithoutImplicit = 52 := rfl
    have biased : (e + Format.binary64.exponentBias +
        Format.binary64.mantissaBitsWithoutImplicit).toNat = (e + 1075).toNat := by omega
    have finite : ¬ 2 ^ Format.binary64.exponentBits ≤ (e + 1075).toNat + 1 := by
      show ¬ 2 ^ 11 ≤ _
      omega
    show UnpackedFloat.unpack _ (UnpackedFloat.pack .binary64 _) = _
    unfold UnpackedFloat.pack
    simp only [biased]
    rw [if_neg finite]
    split
    · next bits =>
      have size : m.log2 = 52 := Nat.succ_inj.mp (bits.trans (Nat.add_comm 1 52))
      have leading : 2 ^ 52 ≤ m := size ▸ Nat.log2_self_le pos.ne'
      have exponent : (BitVec.ofNat 11 (e + 1075).toNat).toNat = (e + 1075).toNat :=
        Nat.mod_eq_of_lt (by omega)
      have mantissa : (BitVec.ofNat 52 m).toNat = m - 2 ^ 52 := by
        rw [BitVec.toNat_ofNat]
        omega
      refine unpack_normal pos ?_ ?_ ?_ ?_
      · rw [exponent]
        omega
      · rw [exponent]
        omega
      · rw [mantissa]
        omega
      · rw [exponent]
        omega
    · next bits =>
      have size : m.log2 < 52 := by
        have at_most := log2_lt_of_lt small
        have other : m.log2 + 1 ≠ 53 := bits
        omega
      have short : m < 2 ^ 52 := (Nat.log2_lt pos.ne').mp size
      exact unpack_subnormal pos (Nat.mod_eq_of_lt short) (full short)

end CopperTidy.Decimal
