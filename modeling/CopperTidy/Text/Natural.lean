/-! # Natural numbers in text

A natural number is read from decimal digits, after an optional `+`, and must lie below a given
limit. It is written without leading zeros. `readNatural?_natural` says that what is written is
read back.
-/

namespace CopperTidy.Text
set_option autoImplicit false

/-- The value of a decimal digit; digits are ASCII. -/
def digit? (c : Char) : Option Nat :=
  if 48 ≤ c.toNat && c.toNat ≤ 57 then some (c.toNat - 48) else none

def isDigit (c : Char) : Bool := (digit? c).isSome

/-- The value of a run of digits that continues the number `value`. -/
def continueNatural? (value : Nat) : List Char → Option Nat
  | [] => some value
  | c :: rest => (digit? c).bind fun d => continueNatural? (10 * value + d) rest

/-- The value of a non-empty run of digits. -/
def digits? : List Char → Option Nat
  | [] => none
  | c :: rest => continueNatural? 0 (c :: rest)

/-- A number below `limit`. A sign other than one leading `+` is refused, and so is a blank. -/
def readNatural? (limit : Nat) (s : String) : Option Nat :=
  let body := match s.toList with
    | '+' :: rest => rest
    | all => all
  (digits? body).filter (· < limit)

/-- Decimal digits of `n`, most significant first. -/
def natural (n : Nat) : List Char := Nat.toDigits 10 n

/-- Decimal text of an integer; a negative one has a leading `-`. -/
def integer : Int → List Char
  | .ofNat n => natural n
  | .negSucc n => '-' :: natural (n + 1)

def integerText (n : Int) : String := String.ofList (integer n)

/-! ## Reading what was written -/

theorem digit?_digitChar {d : Nat} (h : d < 10) : digit? (Nat.digitChar d) = some d := by
  revert d
  decide

theorem continueNatural?_append (value : Nat) (cs ds : List Char) :
    continueNatural? value (cs ++ ds) =
      (continueNatural? value cs).bind fun n => continueNatural? n ds := by
  induction cs generalizing value with
  | nil => rfl
  | cons c rest ih =>
    simp only [List.cons_append, continueNatural?]
    cases digit? c with
    | none => rfl
    | some d => exact ih _

theorem continueNatural?_natural (n : Nat) : continueNatural? 0 (natural n) = some n := by
  induction n using Nat.strongRecOn with
  | _ n ih =>
    by_cases h : n < 10
    · rw [natural, Nat.toDigits_of_lt_base h, continueNatural?, digit?_digitChar h]
      simp [continueNatural?]
    · have smaller : n / 10 < n := by omega
      have digit : n % 10 < 10 := by omega
      rw [natural, Nat.toDigits_of_base_le (by omega) (by omega), continueNatural?_append]
      have front := ih (n / 10) smaller
      rw [natural] at front
      rw [front, Option.bind_some, continueNatural?, digit?_digitChar digit]
      simp only [Option.bind_some, continueNatural?, Option.some.injEq]
      omega

theorem isDigit_natural {n : Nat} {c : Char} (h : c ∈ natural n) : c.isDigit = true :=
  Nat.isDigit_of_mem_toDigits (by omega) (by omega) h

theorem digits?_natural (n : Nat) : digits? (natural n) = some n := by
  cases h : natural n with
  | nil => exact absurd h Nat.toDigits_ne_nil
  | cons c rest =>
    rw [digits?, ← h]
    exact continueNatural?_natural n

theorem readNatural?_natural {limit n : Nat} (h : n < limit) :
    readNatural? limit (String.ofList (natural n)) = some n := by
  have body : (match (String.ofList (natural n)).toList with
      | '+' :: rest => rest
      | all => all) = natural n := by
    rw [String.toList_ofList]
    split
    · next rest eq =>
      have plus : '+' ∈ natural n := by rw [eq]; exact List.mem_cons_self
      exact absurd (isDigit_natural plus) (by decide)
    · rfl
  rw [readNatural?, body, digits?_natural, Option.filter_some, if_pos (by simpa using h)]

end CopperTidy.Text
