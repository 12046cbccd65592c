import CopperTidy.Design.Extract
import CopperTidy.Proofs.Decimal.Nearest
import CopperTidy.Proofs.Decimal.Places

/-! # Millimetres and nanometres

A coordinate of at most `2 ^ 31 - 1` nanometres goes through millimetres unharmed: as a float, as a
text with six places, as the float read from that text, and back to nanometres. Each float on the
way is off by less than a unit in the last place, which at this size is far less than a nanometre.
-/

namespace CopperTidy
set_option autoImplicit false

open Decimal Float.Model.UnpackedFloat

/-- The largest coordinate of a board in nanometres. -/
def maxNm : Nat := 2147483647

namespace Decimal

theorem signOf_div_positive (sign : Sign) : sign / .positive = sign := by
  cases sign <;> rfl

theorem signOf_mul_positive (sign : Sign) : sign * .positive = sign := by
  cases sign <;> rfl

theorem denotes_nmPerMm : Denotes nmPerMm .positive 1000000 := by
  have whole := denotes_ofNat (n := 1000000) (by norm_num)
  exact_mod_cast whole

/-! ## Sizes and errors -/

theorem millimetres_lt {a : Nat} (bounded : a ≤ maxNm) : (a : ℚ) / 1000000 < 2 ^ (12 : Int) := by
  have most : a ≤ 2147483647 := bounded
  rw [div_lt_iff₀ (by norm_num)]
  norm_num
  omega

/-- The error of a float in millimetres, counted in nanometres. -/
theorem scaled_near {a q : ℚ} (near : |q - a / 1000000| ≤ 2 ^ (12 - 54 : Int)) :
    |q * 1000000 - a| ≤ 1 / 4000000 := by
  rw [abs_le] at near ⊢
  norm_num at near
  constructor <;> linarith

/-! ## Writing -/

theorem denotes_toMm {nm : Int64} (bounded : nm.toInt.natAbs ≤ maxNm) :
    ∃ q, Denotes (toMm nm) (signOf nm.toInt) q ∧
      |q - (nm.toInt.natAbs : ℚ) / 1000000| ≤ 2 ^ (12 - 54 : Int) := by
  have small : nm.toInt.natAbs < 2 ^ 53 := by
    unfold maxNm at bounded
    omega
  obtain ⟨q, denotes, near⟩ := (denotes_ofInt small).div denotes_nmPerMm (by norm_num)
    (millimetres_lt bounded) (by norm_num) (by norm_num)
  rw [signOf_div_positive] at denotes
  exact ⟨q, denotes, near⟩

theorem fixed_toMm {nm : Int64} (bounded : nm.toInt.natAbs ≤ maxNm) :
    fixed 6 (toMm nm) = signText (decide (nm.toInt < 0)) ++ withPoint 6 nm.toInt.natAbs := by
  obtain ⟨q, denotes, near⟩ := denotes_toMm bounded
  obtain ⟨m, e, parts, value⟩ := denotes.parts
  have negative : isNegative (signOf nm.toInt) = decide (nm.toInt < 0) := by
    unfold signOf
    by_cases below : nm.toInt < 0
    · rw [if_pos below, isNegative, decide_eq_true below]
    · rw [if_neg below, isNegative, decide_eq_false below]
  have scaled : ((magnitude m e).scale 10 (6 : Nat)).value = q * 1000000 := by
    rw [Ratio.scale_value, magnitude_value, value]
    norm_num
  have rounded : ((magnitude m e).scale 10 (6 : Nat)).nearestEven = nm.toInt.natAbs := by
    refine Ratio.nearestEven_eq (Ratio.scale_den_pos (magnitude_den_pos m e) (by omega)) ?_
    rw [scaled]
    exact (scaled_near near).trans_lt (by norm_num)
  simp only [fixed, parts, negative, rounded]

/-- Only zero would be written so, and zero has no sign. -/
theorem spell_ne_minus_zero {negative : Bool} {whole fraction : List Char} {n k a : Nat}
    (nonempty : whole ≠ []) (digits : ∀ c ∈ whole ++ fraction, Text.isDigit c = true)
    (read : Text.continueNatural? 0 (whole ++ fraction) = some n) (value : n * 10 ^ k = a)
    (signed : negative = true → a ≠ 0) : spell negative whole fraction ≠ ['-', '0'] := by
  intro same
  cases negative with
  | true =>
    obtain ⟨c, rest, rfl⟩ := List.exists_cons_of_ne_nil nonempty
    rw [spell, signText, if_pos rfl, List.cons_append, List.cons_append, List.nil_append] at same
    obtain ⟨head, tail⟩ := List.cons.inj (List.cons.inj same).2
    obtain ⟨rfl, tail⟩ := List.append_eq_nil_iff.mp tail
    by_cases empty : fraction = []
    · subst empty head
      have zero : n = 0 := Option.some.inj (read.symm.trans rfl)
      rw [zero, Nat.zero_mul] at value
      exact signed rfl value.symm
    · rw [if_neg empty] at tail
      cases tail
  | false =>
    obtain ⟨c, rest, rfl⟩ := List.exists_cons_of_ne_nil nonempty
    have digit := digits c List.mem_cons_self
    rw [spell, signText, if_neg Bool.false_ne_true, List.nil_append, List.cons_append] at same
    rw [(List.cons.inj same).1] at digit
    exact absurd digit (by decide)

/-- What is written of a coordinate: digits that give it, but for a power of ten. -/
theorem mmText_spell {nm : Int64} (bounded : nm.toInt.natAbs ≤ maxNm) :
    ∃ whole fraction n k, mmText nm = String.ofList (spell (decide (nm.toInt < 0)) whole fraction) ∧
      whole ≠ [] ∧ (∀ c ∈ whole ++ fraction, Text.isDigit c = true) ∧
      Text.digits? (whole ++ fraction) = some n ∧ fraction.length + k = 6 ∧
      n * 10 ^ k = nm.toInt.natAbs := by
  obtain ⟨whole, places, text, nonempty, length, digits, value⟩ :=
    withPoint_eq (show 0 < 6 by decide) nm.toInt.natAbs
  have ends : (signText (decide (nm.toInt < 0)) ++ whole).getLast? ≠ some '.' := by
    rw [List.getLast?_append_of_ne_nil _ nonempty]
    intro point
    have digit := digits '.' (List.mem_append_left _ (List.mem_of_getLast? point))
    exact absurd digit (by decide)
  obtain ⟨fraction, k, parts, trimmed⟩ := trimFraction_eq
    (fun c mem => digits c (List.mem_append_right _ mem)) ends
  subst parts
  rw [← List.append_assoc, Text.continueNatural?_append] at value
  obtain ⟨n, read, rest⟩ := Option.bind_eq_some_iff.mp value
  rw [Text.continueNatural?_zeros, Option.some.injEq] at rest
  have some_digit : whole ++ fraction ≠ [] := fun nil => nonempty (List.append_eq_nil_iff.mp nil).1
  have all : ∀ c ∈ whole ++ fraction, Text.isDigit c = true := fun c mem =>
    digits c (by rw [← List.append_assoc]; exact List.mem_append_left _ mem)
  refine ⟨whole, fraction, n, k, ?_, nonempty, all, ?_, ?_, rest⟩
  · have written : trimFraction (fixed 6 (toMm nm)) =
        spell (decide (nm.toInt < 0)) whole fraction := by
      rw [fixed_toMm bounded, text, ← List.append_assoc, trimmed, spell]
    have not_nil : spell (decide (nm.toInt < 0)) whole fraction ≠ [] := by
      rw [spell, List.append_assoc]
      simp [nonempty]
    have not_zero : spell (decide (nm.toInt < 0)) whole fraction ≠ ['-', '0'] := by
      refine spell_ne_minus_zero nonempty all read rest fun below => ?_
      have negative := of_decide_eq_true below
      omega
    rw [mmText, written]
    simp [not_nil, not_zero]
  · rw [Text.digits?_of_ne_nil some_digit, read]
  · rw [List.length_append, zeros, List.length_replicate] at length
    exact length

/-! ## Reading -/

theorem denotes_quotient {n k : Nat} {top : Int} (small : n < 2 ^ 53) (few : k ≤ 6)
    (below : (n : ℚ) / 10 ^ k < 2 ^ top) (low : -1021 ≤ top) (high : top ≤ 1023) :
    ∃ q, Denotes (Float.ofScientific n true k) .positive q ∧ |q - n / 10 ^ k| ≤ 2 ^ (top - 54) := by
  have exact_ : n < 2 ^ 53 ∧ k ≤ 22 := ⟨small, by omega⟩
  rw [Float.ofScientific, dif_pos exact_]
  exact (denotes_toFloat small).div (denotes_power _ (by omega)) (by positivity) below low high

theorem ofDecimal_eq {n f : Nat} (positive : n ≠ 0) (small : n ≤ maxNm) (few : f ≤ 6) :
    ofDecimal n (-f) = Float.ofScientific n (decide ((-f : Int) < 0)) f := by
  have short : (Text.natural n).length ≤ 10 := by
    rw [Text.natural, Nat.length_toDigits_le_iff (by omega) (by omega)]
    unfold maxNm at small
    omega
  rw [ofDecimal]
  rw [if_neg positive, if_neg (by omega), if_neg (by omega), Int.natAbs_neg, Int.natAbs_natCast]

/-- In millimetres again, from the digits that were written. -/
theorem denotes_ofDecimal {n f k a : Nat} (places : f + k = 6) (value : n * 10 ^ k = a)
    (bounded : a ≤ maxNm) :
    ∃ q, Denotes (ofDecimal n (-f)) .positive q ∧ |q - (a : ℚ) / 1000000| ≤ 2 ^ (12 - 54 : Int) := by
  have power : 0 < 10 ^ k := Nat.pow_pos (by omega)
  have small : n ≤ maxNm := (Nat.le_mul_of_pos_right n power).trans (value.trans_le bounded)
  have ratio : (n : ℚ) / 10 ^ f = a / 1000000 := by
    rw [← value, show (1000000 : ℚ) = 10 ^ (f + k) by rw [places]; norm_num, pow_add]
    push_cast
    field_simp
  have below := millimetres_lt bounded
  by_cases zero : n = 0
  · subst zero
    rw [Nat.zero_mul] at value
    subst value
    have none := denotes_ofNat (n := 0) (by omega)
    refine ⟨0, by exact_mod_cast none, ?_⟩
    norm_num
  rw [ofDecimal_eq zero small (by omega), ← ratio]
  rw [← ratio] at below
  have exact_ : n < 2 ^ 53 := by
    unfold maxNm at small
    omega
  by_cases whole : f = 0
  · subst whole
    refine ⟨n, denotes_ofNat exact_, ?_⟩
    norm_num
  · have fraction : decide ((-f : Int) < 0) = true := by
      rw [decide_eq_true_iff]
      omega
    rw [fraction]
    exact denotes_quotient exact_ (by omega) below (by norm_num) (by norm_num)

/-! ## Nanometres -/

theorem denotes_toNm {v : Float} {sign : Sign} {q : ℚ} {a : Nat} (h : Denotes v sign q)
    (bounded : a ≤ maxNm) (near : |q - (a : ℚ) / 1000000| ≤ 2 ^ (12 - 54 : Int)) :
    ∃ r, Denotes (v * nmPerMm) sign r ∧ |r - a| < 1 / 2 := by
  have most : (a : ℚ) ≤ 2147483647 := by exact_mod_cast bounded
  have close := abs_le.mp (scaled_near near)
  have below : q * 1000000 < 2 ^ (32 : Int) := by
    norm_num
    linarith
  obtain ⟨r, denotes, error⟩ := h.mul denotes_nmPerMm below (by norm_num) (by norm_num)
  rw [signOf_mul_positive] at denotes
  refine ⟨r, denotes, ?_⟩
  rw [abs_le] at error
  norm_num at error
  rw [abs_lt]
  constructor <;> linarith

theorem denotes_maxCoordinate :
    ∃ q, Denotes Design.maxCoordinate .positive q ∧
      |q - (maxNm : ℚ) / 1000000| ≤ 2 ^ (12 - 54 : Int) := by
  have below := millimetres_lt (le_refl maxNm)
  have power : (10 : ℚ) ^ 6 = 1000000 := by norm_num
  rw [← power] at below ⊢
  exact denotes_quotient (by decide) le_rfl below (by norm_num) (by norm_num)

theorem Denotes.isFinite {x : Float} {sign : Sign} {q : ℚ} (h : Denotes x sign q) :
    isFinite x = true := by
  obtain ⟨m, e, parts, _⟩ := h.parts
  rw [Decimal.isFinite, parts]

theorem Denotes.inRange_iff {x : Float} {sign : Sign} {p q : ℚ} (h : Denotes x sign p)
    (limit : Denotes Design.maxCoordinate .positive q) : Design.inRange x = true ↔ p ≤ q := by
  have order : Design.maxCoordinate < x.abs ↔ q < p := limit.lt_iff h.abs
  rw [Design.inRange, h.isFinite, Bool.true_and, Bool.not_eq_true', decide_eq_false_iff_not, gt_iff_lt,
    order, not_lt]

theorem Denotes.unique {x : Float} {s t : Sign} {p q : ℚ} (first : Denotes x s p)
    (second : Denotes x t q) : p = q := by
  unfold Denotes at first second
  generalize x.toModel.unpack = u at first second
  cases first with
  | zero =>
    cases second
    rfl
  | finite =>
    cases second
    rfl

/-- A written coordinate is within the range of a board. -/
theorem inRange_ofDecimal {v : Float} {sign : Sign} {n f k a : Nat} {q : ℚ} (h : Denotes v sign q)
    (digits : Denotes (ofDecimal n (-f)) .positive q) (places : f + k = 6) (value : n * 10 ^ k = a)
    (bounded : a ≤ maxNm) (near : |q - (a : ℚ) / 1000000| ≤ 2 ^ (12 - 54 : Int)) :
    Design.inRange v = true := by
  obtain ⟨most, limit, error⟩ := denotes_maxCoordinate
  rw [h.inRange_iff limit]
  rcases Nat.lt_or_eq_of_le bounded with less | extreme
  · have cast : (a : ℚ) + 1 ≤ maxNm := by exact_mod_cast less
    rw [abs_le] at near error
    norm_num at near error
    linarith
  · -- The last digit of the limit is not zero, so no place is lost and the float is the limit itself.
    have whole : k = 0 := by
      by_contra some_zero
      obtain ⟨j, rfl⟩ := Nat.exists_eq_succ_of_ne_zero some_zero
      rw [Nat.pow_succ, ← Nat.mul_assoc] at value
      unfold maxNm at extreme
      omega
    subst whole
    rw [pow_zero, Nat.mul_one] at value
    have six : f = 6 := by omega
    subst value extreme six
    exact (digits.unique limit).le

/-- What is written of a coordinate is read as the same coordinate. -/
theorem read?_mmText {nm : Int64} (bounded : nm.toInt.natAbs ≤ maxNm) :
    ∃ v, read? (mmText nm) = some v ∧ Design.inRange v = true ∧ toNm v = nm := by
  obtain ⟨whole, fraction, n, k, text, nonempty, digits, value, places, size⟩ := mmText_spell bounded
  obtain ⟨q, denotes, near⟩ := denotes_ofDecimal places size bounded
  refine ⟨_, text ▸ read?_spell nonempty digits value, ?_⟩
  have signed : Denotes (if decide (nm.toInt < 0) then -ofDecimal n (-fraction.length)
      else ofDecimal n (-fraction.length)) (signOf nm.toInt) q := by
    unfold signOf
    by_cases negative : nm.toInt < 0
    · rw [if_pos negative, decide_eq_true negative]
      exact denotes.neg
    · rw [if_neg negative, decide_eq_false negative]
      exact denotes
  refine ⟨inRange_ofDecimal signed denotes places size bounded near, ?_⟩
  obtain ⟨r, scaled, close⟩ := denotes_toNm signed bounded near
  exact scaled.nearest_eq close

/-- A coordinate within the range of a board has that many nanometres at most. -/
theorem toNm_natAbs_le {v : Float} (h : Design.inRange v = true) : (toNm v).toInt.natAbs ≤ maxNm := by
  have finite : isFinite v = true := (Bool.and_eq_true_iff.mp h).1
  obtain ⟨sign, p, denotes⟩ := stands_of_isFinite finite
  obtain ⟨q, limit, error⟩ := denotes_maxCoordinate
  have at_most := (Denotes.inRange_iff denotes limit).mp h
  have most : (maxNm : ℚ) = 2147483647 := by norm_num [maxNm]
  rw [most, abs_le] at error
  norm_num at error
  have below : p * 1000000 < 2 ^ (32 : Int) := by
    norm_num
    linarith
  obtain ⟨r, scaled, near⟩ := Denotes.mul denotes denotes_nmPerMm below (by norm_num) (by norm_num)
  rw [abs_le] at near
  norm_num at near
  refine scaled.nearest_le ?_
  rw [most]
  linarith

end Decimal
end CopperTidy
