import CopperTidy.Decimal.Binary

/-! # The hypotenuse

`hypotenuse x y` is `√(x² + y²)` with an error below one unit in the last place. The root of the
rounded sum of squares is improved by one step of Newton's method, and legs whose squares leave the
range of floats are scaled by a power of two first. The order of the float operations is part of
the definition: the last digit of a length depends on it.
-/

namespace CopperTidy.Decimal
set_option autoImplicit false

def powerOfTwo (e : Int) : Float := ofBinary false 1 e

/-- `h² - a² - b²`, through the difference of `h` and the leg nearer to it, so that little
cancels. -/
def excess (h a b : Float) : Float :=
  if h ≤ 2 * b then
    let d := h - b
    a * (2 * d - a) + (d - 2 * (a - b)) * d
  else
    let d := h - a
    2 * d * (a - 2 * b) + ((4 * d - b) * b + d * d)

/-- The hypotenuse over legs `b ≤ a` whose squares are in range: a root and one Newton step. -/
def correctedRoot (a b : Float) : Float :=
  let h := Float.sqrt (a * a + b * b)
  h - excess h a b / (2 * h)

/-- The hypotenuse over finite legs `0 ≤ b ≤ a`. Beside a leg `2 ^ 54` times as long the shorter
one is lost in rounding. -/
def hypotenuseOfLegs (a b : Float) : Float :=
  if b * powerOfTwo 54 ≤ a then a + b
  else if powerOfTwo 511 < a then
    correctedRoot (a * powerOfTwo (-600)) (b * powerOfTwo (-600)) * powerOfTwo 600
  else if b < powerOfTwo (-459) then
    correctedRoot (a * powerOfTwo 600) (b * powerOfTwo 600) * powerOfTwo (-600)
  else correctedRoot a b

/-- `√(x² + y²)`. An infinite leg outweighs one that is not a number. -/
def hypotenuse (x y : Float) : Float :=
  match parts x, parts y with
  | .infinite _, _ | _, .infinite _ => Float.ofBits 0x7FF0000000000000
  | .nan, _ | _, .nan => Float.ofBits 0x7FF8000000000000
  | .finite .., .finite .. =>
    if x.abs < y.abs then hypotenuseOfLegs y.abs x.abs else hypotenuseOfLegs x.abs y.abs

end CopperTidy.Decimal
