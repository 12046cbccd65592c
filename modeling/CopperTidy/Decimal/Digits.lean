import CopperTidy.Decimal.Binary
import CopperTidy.Text.Natural

/-! # Decimal digits of a float

Three ways to pick digits. `shortest` takes the fewest digits that read back to the same float, and
of those the nearest to its value. `fixed` rounds to a number of places after the point, and
`scientific` to a number of significant digits; both go to the even neighbour on a tie of exact
values.
-/

namespace CopperTidy.Decimal
set_option autoImplicit false

/-- The value `0.d₁d₂… * 10 ^ point`. -/
structure Digits where
  digits : List Char
  point : Int
  deriving DecidableEq, Repr

/-- The `k` with `10 ^ k ≤ r < 10 ^ (k + 1)`, for a positive `r`. -/
def leadingPlace (r : Ratio) : Int :=
  if r.den ≤ r.num then (Text.natural (r.num / r.den)).length - 1
  else
    let above := (r.den + r.num - 1) / r.num
    Int.neg (Text.natural (above - 1)).length

/-! ## Fewest digits -/

/-- Which of two equally near digit sequences is taken. -/
inductive Tie
  | up
  | even
  deriving DecidableEq, Repr

/-- The reals that round to `m * 2 ^ e`: a closed interval for an even mantissa, an open one for an
odd mantissa. Below a power of two the floats lie twice as dense. -/
structure Interval where
  low : Ratio
  high : Ratio
  closed : Bool

def Interval.around (m : Nat) (e : Int) : Interval :=
  let below := if m = 1 <<< 52 && decide (-1074 < e) then 1 else 2
  { low := magnitude (4 * m - below) (e - 2)
    high := magnitude (4 * m + 2) (e - 2)
    closed := m % 2 == 0 }

def Interval.contains (i : Interval) (r : Ratio) : Bool :=
  if i.closed then i.low.le r && r.le i.high else i.low.lt r && r.lt i.high

/-- A value on the grid of multiples of `10 ^ place` that lies in the interval, next to the value
`r` on either side and the nearer of the two if both do. -/
def onGrid (tie : Tie) (i : Interval) (r : Ratio) (place : Int) : Option Nat :=
  let steps := r.scale 10 (-place)
  let down := steps.floor
  let up := down + 1
  let hits (n : Nat) : Bool := i.contains (Ratio.scale ⟨n, 1⟩ 10 place)
  match hits down, hits up with
  | true, true =>
    some (match tie with
      | .up => steps.nearestUp
      | .even => steps.nearestEven)
  | true, false => some down
  | false, true => some up
  | false, false => none

/-- Digits of `n * 10 ^ place` without trailing zeros. -/
def trimmed (n : Nat) (place : Int) : Digits :=
  let all := Text.natural n
  let digits := (all.reverse.dropWhile (· == '0')).reverse
  ⟨digits, all.length + place⟩

/-- The fewest digits that read back to the positive float `m * 2 ^ e`; seventeen always do. -/
def shortest (tie : Tie) (m : Nat) (e : Int) : Digits :=
  let r := magnitude m e
  let lead := leadingPlace r
  let i := Interval.around m e
  let found := (List.range 17).findSome? fun (n : Nat) =>
    (onGrid tie i r (lead - n)).map fun d => trimmed d (lead - n)
  found.getD ⟨[], 0⟩

/-! ## Fixed places and significant digits -/

def signText (negative : Bool) : List Char := if negative then ['-'] else []

def zeros (n : Nat) : List Char := List.replicate n '0'

/-- `n / 10 ^ places` with exactly that many places. -/
def withPoint (places n : Nat) : List Char :=
  let all := Text.natural n
  let padded := zeros (places + 1 - all.length) ++ all
  let whole := padded.length - places
  if places = 0 then padded else padded.take whole ++ '.' :: padded.drop whole

/-- A float rounded to `places` places after the point. -/
def fixed (places : Nat) (x : Float) : List Char :=
  match parts x with
  | .nan => "NaN".toList
  | .infinite negative => signText negative ++ "inf".toList
  | .finite negative m e =>
    signText negative ++ withPoint places ((magnitude m e).scale 10 places).nearestEven

/-- A float rounded to `places + 1` significant digits, with a power of ten. -/
def scientific (places : Nat) (x : Float) : List Char :=
  match parts x with
  | .nan => "NaN".toList
  | .infinite negative => signText negative ++ "inf".toList
  | .finite negative 0 _ => signText negative ++ withPoint places 0 ++ "e0".toList
  | .finite negative m e =>
    let r := magnitude m e
    let lead := leadingPlace r
    let n := (r.scale 10 (places - lead)).nearestEven
    let (n, lead) := if n = Nat.pow 10 (places + 1) then (Nat.pow 10 places, lead + 1) else (n, lead)
    signText negative ++ withPoint places n ++ 'e' :: Text.integer lead

end CopperTidy.Decimal
