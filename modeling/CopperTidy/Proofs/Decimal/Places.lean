import CopperTidy.Copper.Point
import Mathlib.Algebra.Ring.Nat
import Mathlib.Data.List.Induction

/-! # Decimal places in text

A number written with a fixed number of places loses the zeros at its end, and perhaps its point,
and is then read back digit by digit: the digits that are left give the number, up to a power of
ten that the point accounts for.
-/

namespace CopperTidy
set_option autoImplicit false

namespace Text

theorem continueNatural?_zeros (value k : Nat) :
    continueNatural? value (Decimal.zeros k) = some (value * 10 ^ k) := by
  induction k generalizing value with
  | zero =>
    rw [Nat.pow_zero, Nat.mul_one]
    rfl
  | succ k ih =>
    have zero : digit? '0' = some 0 := by decide
    rw [Decimal.zeros, List.replicate_succ, continueNatural?, zero, Option.bind_some]
    exact (ih _).trans (by rw [Nat.add_zero, Nat.pow_succ', Nat.mul_comm 10 value, Nat.mul_assoc])

theorem digits?_of_ne_nil {cs : List Char} (h : cs ≠ []) : digits? cs = continueNatural? 0 cs := by
  cases cs with
  | nil => exact absurd rfl h
  | cons c rest => rfl

theorem isDigit_of_mem_natural {n : Nat} {c : Char} (h : c ∈ natural n) : isDigit c = true := by
  have digit := isDigit_natural h
  simp only [Char.isDigit, Bool.and_eq_true, decide_eq_true_eq, ge_iff_le,
    UInt32.le_iff_toNat_le] at digit
  have low : 48 ≤ c.toNat := digit.1
  have high : c.toNat ≤ 57 := digit.2
  simp [isDigit, digit?, low, high]

end Text

namespace Decimal

/-- The text of a number by its sign and the digits on both sides of the point. -/
def spell (negative : Bool) (whole fraction : List Char) : List Char :=
  signText negative ++ whole ++ if fraction = [] then [] else '.' :: fraction

/-! ## Writing -/

theorem withPoint_eq {places : Nat} (some_place : 0 < places) (n : Nat) :
    ∃ whole fraction, withPoint places n = whole ++ '.' :: fraction ∧ whole ≠ [] ∧
      fraction.length = places ∧ (∀ c ∈ whole ++ fraction, Text.isDigit c = true) ∧
      Text.continueNatural? 0 (whole ++ fraction) = some n := by
  obtain ⟨padded, text⟩ : ∃ padded,
      padded = zeros (places + 1 - (Text.natural n).length) ++ Text.natural n := ⟨_, rfl⟩
  have long : places + 1 ≤ padded.length := by
    rw [text, List.length_append, zeros, List.length_replicate]
    omega
  refine ⟨padded.take (padded.length - places), padded.drop (padded.length - places), ?_, ?_, ?_,
    ?_, ?_⟩
  · simp only [withPoint, ← text]
    rw [if_neg (by omega)]
  · rw [ne_eq, List.take_eq_nil_iff]
    rintro (none | nil)
    · omega
    · rw [nil, List.length_nil] at long
      omega
  · rw [List.length_drop]
    omega
  · intro c mem
    rw [List.take_append_drop, text] at mem
    rcases List.mem_append.mp mem with zero | digit
    · rw [(List.mem_replicate.mp zero).2]
      rfl
    · exact Text.isDigit_of_mem_natural digit
  · rw [List.take_append_drop, text, Text.continueNatural?_append, Text.continueNatural?_zeros,
      Nat.zero_mul, Option.bind_some, Text.continueNatural?_natural]

theorem dropWhile_replicate_append {c : Char} {k : Nat} {rest : List Char} (h : rest.head? ≠ some c) :
    (List.replicate k c ++ rest).dropWhile (· == c) = rest := by
  induction k with
  | zero =>
    cases rest with
    | nil => rfl
    | cons d rest =>
      have other : (d == c) = false := by
        rw [beq_eq_false_iff_ne]
        rintro rfl
        exact h rfl
      simp [other]
  | succ k ih => simpa [List.replicate_succ] using ih

/-- Every list of digits has its zeros at the end apart from the rest. -/
theorem trailing_zeros (digits : List Char) :
    ∃ kept k, digits = kept ++ zeros k ∧ kept.getLast? ≠ some '0' := by
  induction digits using List.reverseRecOn with
  | nil => exact ⟨[], 0, rfl, by simp⟩
  | append_singleton front c ih =>
    by_cases zero : c = '0'
    · obtain ⟨kept, k, rfl, last⟩ := ih
      refine ⟨kept, k + 1, ?_, last⟩
      rw [zero, List.append_assoc, zeros, zeros, List.replicate_succ']
    · refine ⟨front ++ [c], 0, ?_, ?_⟩
      · rw [zeros, List.replicate_zero, List.append_nil]
      · simpa using zero

theorem trimFraction_eq {front fraction : List Char} (digits : ∀ c ∈ fraction, Text.isDigit c = true)
    (ends : front.getLast? ≠ some '.') :
    ∃ kept k, fraction = kept ++ zeros k ∧
      trimFraction (front ++ '.' :: fraction) =
        front ++ if kept = [] then [] else '.' :: kept := by
  obtain ⟨kept, k, parts, last⟩ := trailing_zeros fraction
  refine ⟨kept, k, parts, ?_⟩
  have reversed : (front ++ '.' :: fraction).reverse =
      List.replicate k '0' ++ (kept.reverse ++ '.' :: front.reverse) := by
    rw [parts, zeros]
    simp
  have ends' : front.reverse.head? ≠ some '.' := by rwa [List.head?_reverse]
  by_cases empty : kept = []
  · subst empty
    have gone : ('.' :: front.reverse).head? ≠ some '0' := by simp
    have point := dropWhile_replicate_append (k := 1) ends'
    rw [trimFraction, reversed, List.reverse_nil, List.nil_append, dropWhile_replicate_append gone,
      if_pos rfl, List.append_nil]
    exact (congrArg List.reverse point).trans (List.reverse_reverse front)
  · obtain ⟨c, back, order⟩ := List.exists_cons_of_ne_nil (mt List.reverse_eq_nil_iff.mp empty)
    have final : kept.getLast? = some c := by rw [← List.head?_reverse, order, List.head?_cons]
    have digit : Text.isDigit c = true :=
      digits c (parts ▸ List.mem_append_left _ (List.mem_of_getLast? final))
    have not_zero : (kept.reverse ++ '.' :: front.reverse).head? ≠ some '0' := by
      rw [order, List.cons_append, List.head?_cons, ← final]
      exact last
    have not_point : (kept.reverse ++ '.' :: front.reverse).head? ≠ some '.' := by
      rw [order, List.cons_append, List.head?_cons]
      rintro same
      rw [Option.some.inj same] at digit
      exact absurd digit (by decide)
    have point := dropWhile_replicate_append (k := 0) not_point
    rw [trimFraction, reversed, dropWhile_replicate_append not_zero, if_neg empty]
    refine (congrArg List.reverse point).trans ?_
    simp

/-! ## Reading -/

theorem lower_digit {c : Char} (h : Text.isDigit c = true) : lower c = c := by
  have high : c.toNat ≤ 57 := by
    by_contra above
    have none : Text.digit? c = none := by
      rw [Text.digit?, if_neg]
      simp [above]
    rw [Text.isDigit, none] at h
    cases h
  rw [lower, if_neg]
  simp
  omega

theorem readMagnitude?_digit {c : Char} {cs : List Char} (h : Text.isDigit c = true) :
    readMagnitude? (c :: cs) = readUnsigned? (c :: cs) := by
  have start {word : String} (same : String.ofList ((c :: cs).map lower) = word) :
      word.toList.head? = some c := by
    rw [← same, String.toList_ofList, List.map_cons, List.head?_cons, lower_digit h]
  have letter {d : Char} (word : Text.isDigit d = false) (same : some d = some c) : False := by
    rw [Option.some.inj same, h] at word
    cases word
  unfold readMagnitude?
  split
  · next same => exact (letter (by decide) (start same)).elim
  · next same => exact (letter (by decide) (start same)).elim
  · next same => exact (letter (by decide) (start same)).elim
  · rfl

theorem takeWhile_digits {digits rest : List Char} (all : ∀ c ∈ digits, Text.isDigit c = true)
    (stop : ∀ c ∈ rest.head?, Text.isDigit c = false) :
    (digits ++ rest).takeWhile Text.isDigit = digits ∧
      (digits ++ rest).dropWhile Text.isDigit = rest := by
  rw [List.takeWhile_append_of_pos all, List.dropWhile_append_of_pos all]
  cases rest with
  | nil => exact ⟨List.append_nil digits, rfl⟩
  | cons c rest =>
    have last := stop c rfl
    rw [List.takeWhile_cons_of_neg (by simp [last]), List.dropWhile_cons_of_neg (by simp [last])]
    exact ⟨List.append_nil digits, rfl⟩

theorem readUnsigned?_spell {whole fraction : List Char} {n : Nat}
    (digits : ∀ c ∈ whole ++ fraction, Text.isDigit c = true)
    (value : Text.digits? (whole ++ fraction) = some n) :
    readUnsigned? (whole ++ if fraction = [] then [] else '.' :: fraction) =
      some (ofDecimal n (-fraction.length)) := by
  have front : ∀ c ∈ whole, Text.isDigit c = true := fun c mem =>
    digits c (List.mem_append_left _ mem)
  have back : ∀ c ∈ fraction, Text.isDigit c = true := fun c mem =>
    digits c (List.mem_append_right _ mem)
  by_cases empty : fraction = []
  · subst empty
    have nothing_after : ∀ c ∈ ([] : List Char).head?, Text.isDigit c = false := nofun
    obtain ⟨taken, dropped⟩ := takeWhile_digits front nothing_after
    rw [List.append_nil] at taken dropped value
    simp only [if_true, readUnsigned?, taken, dropped, List.append_nil, value]
    rfl
  · have point : ∀ c ∈ ('.' :: fraction).head?, Text.isDigit c = false := by
      rintro c mem
      rw [← Option.some.inj mem]
      decide
    obtain ⟨taken, dropped⟩ := takeWhile_digits front point
    have nothing_after : ∀ c ∈ ([] : List Char).head?, Text.isDigit c = false := nofun
    obtain ⟨all, nothing⟩ := takeWhile_digits back nothing_after
    rw [List.append_nil] at all nothing
    simp only [if_neg empty, readUnsigned?, taken, dropped, all, nothing, value, Int.zero_sub]

theorem read?_spell {negative : Bool} {whole fraction : List Char} {n : Nat}
    (nonempty : whole ≠ []) (digits : ∀ c ∈ whole ++ fraction, Text.isDigit c = true)
    (value : Text.digits? (whole ++ fraction) = some n) :
    read? (String.ofList (spell negative whole fraction)) =
      some (if negative then -ofDecimal n (-fraction.length) else ofDecimal n (-fraction.length)) := by
  obtain ⟨c, rest, rfl⟩ := List.exists_cons_of_ne_nil nonempty
  have digit := digits c List.mem_cons_self
  have unsigned := readUnsigned?_spell digits value
  rw [List.cons_append, ← readMagnitude?_digit digit] at unsigned
  rw [read?, String.toList_ofList, spell, List.append_assoc, List.cons_append]
  cases negative with
  | true =>
    simp only [signText, if_true, List.cons_append, List.nil_append, unsigned, Option.map_some]
  | false =>
    simp only [signText, Bool.false_eq_true, if_false, List.nil_append]
    split
    · next same =>
      rw [(List.cons.inj same).1] at digit
      exact absurd digit (by decide)
    · next same =>
      rw [(List.cons.inj same).1] at digit
      exact absurd digit (by decide)
    · exact unsigned

end Decimal
end CopperTidy
