import CopperTidy.Decimal.Hypotenuse
import CopperTidy.Decimal.Text

/-! # Lengths and points

A board file gives lengths in millimetres, a board holds them in nanometres. `toNm` rounds to the
nearest nanometre, a half away from zero, and holds the result inside 64 bits. Points of the board
are in whole nanometres.
-/

namespace CopperTidy
set_option autoImplicit false

/-- Nanometres per millimetre. -/
def nmPerMm : Float := 1000000

def toNm (mm : Float) : Int64 := Decimal.nearest (mm * nmPerMm)

def toMm (nm : Int64) : Float := Decimal.ofInt64 nm / nmPerMm

/-- A decimal text without the zeros at its end, and without a point that nothing follows. -/
def trimFraction (digits : List Char) : List Char :=
  ((digits.reverse.dropWhile (· == '0')).dropWhile (· == '.')).reverse

/-- Millimetres with up to six places, as coordinates are written in a file. -/
def mmText (nm : Int64) : String :=
  let digits := trimFraction (Decimal.fixed 6 (toMm nm))
  if digits = [] || digits = ['-', '0'] then "0" else String.ofList digits

structure Point where
  x : Int64
  y : Int64
  deriving DecidableEq, Repr

namespace Point

def distance (p q : Point) : Float :=
  Decimal.hypotenuse (Decimal.ofInt64 q.x - Decimal.ofInt64 p.x)
    (Decimal.ofInt64 q.y - Decimal.ofInt64 p.y)

/-- The point in millimetres with four places, as messages show it. -/
def text (p : Point) : String :=
  String.ofList
    ('(' :: Decimal.fixed 4 (toMm p.x) ++ ", ".toList ++ Decimal.fixed 4 (toMm p.y) ++ [')'])

end Point
end CopperTidy
