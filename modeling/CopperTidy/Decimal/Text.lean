import CopperTidy.Decimal.Digits

/-! # Floats as text

`Style.plain` is the form of millimetre values in answers and messages: never an exponent, no point
without a fraction. `Style.json` is the form of JSON numbers: always a point or an exponent, and a
signed exponent from `10 ^ 16` on and below `10 ^ -5`. `read?` reads both, and more.
-/

namespace CopperTidy.Decimal
set_option autoImplicit false

/-- How digits are laid out. -/
structure Style where
  /-- Of two equally short and equally near digit sequences. -/
  tie : Tie
  /-- Is the number with its point at this place written without an exponent? -/
  positional : Int → Bool
  /-- What follows a number without a fraction. -/
  wholeEnding : List Char

/-- No exponent at all, and no point after a whole number. -/
def Style.plain : Style := ⟨.up, fun _ => true, []⟩

/-- An exponent from `10 ^ 16` on and below `10 ^ -5`; whole numbers end in `.0`. -/
def Style.json : Style := ⟨.even, fun point => -5 < point && point ≤ 16, ".0".toList⟩

/-- An exponent with its sign. -/
def signedExponent (e : Int) : List Char :=
  if 0 ≤ e then '+' :: Text.integer e else Text.integer e

/-- The digits of a number with its point set, or with an exponent. -/
def Style.layOut (style : Style) (d : Digits) : List Char :=
  let size := d.digits.length
  if style.positional d.point then
    if d.point ≤ 0 then '0' :: '.' :: zeros (-d.point).toNat ++ d.digits
    else if size ≤ d.point then d.digits ++ zeros (d.point.toNat - size) ++ style.wholeEnding
    else d.digits.take d.point.toNat ++ '.' :: d.digits.drop d.point.toNat
  else
    let fraction := if size = 1 then [] else '.' :: d.digits.drop 1
    d.digits.take 1 ++ fraction ++ 'e' :: signedExponent (d.point - 1)

def Style.write (style : Style) (x : Float) : List Char :=
  match parts x with
  | .nan => "NaN".toList
  | .infinite negative => signText negative ++ "inf".toList
  | .finite negative 0 _ => signText negative ++ '0' :: style.wholeEnding
  | .finite negative m e => signText negative ++ style.layOut (shortest style.tie m e)

/-- The plain form: `0.25`, `3`, `-0`, `NaN`, `inf`. -/
def plain (x : Float) : String := String.ofList (Style.plain.write x)

/-! ## Reading -/

/-- A letter in lower case; other characters stay. -/
def lower (c : Char) : Char :=
  if 65 ≤ c.toNat && c.toNat ≤ 90 then Char.ofNat (c.toNat + 32) else c

/-- The exponent after `e`: an optional sign and at least one digit. -/
def readExponent? : List Char → Option Int
  | '+' :: rest => (Text.digits? rest).map Int.ofNat
  | '-' :: rest => (Text.digits? rest).map fun n => -Int.ofNat n
  | rest => (Text.digits? rest).map Int.ofNat

/-- The float nearest to `n * 10 ^ e`. Far beyond the range of floats the answer does not depend on
the exact exponent, which is therefore cut. -/
def ofDecimal (n : Nat) (e : Int) : Float :=
  let size : Int := (Text.natural n).length
  if n = 0 then 0
  else if 400 < size + e then Float.ofBits 0x7FF0000000000000
  else if size + e < -400 then 0
  else Float.ofScientific n (decide (e < 0)) e.natAbs

/-- An unsigned number: digits, a point with more digits, an exponent. One digit beside the point
is enough. -/
def readUnsigned? (cs : List Char) : Option Float :=
  let whole := cs.takeWhile Text.isDigit
  let rest := cs.dropWhile Text.isDigit
  let (fraction, rest) := match rest with
    | '.' :: more => (more.takeWhile Text.isDigit, more.dropWhile Text.isDigit)
    | _ => ([], rest)
  let exponent := match rest with
    | [] => some 0
    | c :: more => if c = 'e' || c = 'E' then readExponent? more else none
  match Text.digits? (whole ++ fraction), exponent with
  | some n, some e => some (ofDecimal n (e - fraction.length))
  | _, _ => none

def readMagnitude? (cs : List Char) : Option Float :=
  match String.ofList (cs.map lower) with
  | "inf" | "infinity" => some (Float.ofBits 0x7FF0000000000000)
  | "nan" => some (Float.ofBits 0x7FF8000000000000)
  | _ => readUnsigned? cs

/-- The number a text spells. An optional sign comes before digits, `inf`, `infinity` or `nan`;
letters count in either case. Blanks are not allowed. -/
def read? (s : String) : Option Float :=
  match s.toList with
  | '+' :: rest => readMagnitude? rest
  | '-' :: rest => (readMagnitude? rest).map (- ·)
  | all => readMagnitude? all

end CopperTidy.Decimal
