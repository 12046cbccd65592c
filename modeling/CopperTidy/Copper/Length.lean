import CopperTidy.Copper.Track

/-! # Lengths of tracks

A trace has the distance of its ends. An arc has the length of the circle through its three points,
from its start over the middle point to its end; three points on a line count as two straight
pieces.
-/

namespace CopperTidy
set_option autoImplicit false

/-- The full turn, `2π`. -/
def fullTurn : Float := 6.283185307179586

/-- Below this size a determinant counts as zero: the gap between 1 and the next float. -/
def smallestGap : Float := 2.220446049250313e-16

/-- An angle brought into one turn, counted anticlockwise. -/
def withinTurn (angle : Float) : Float :=
  let rest := Decimal.remainder angle fullTurn
  if rest < 0 then rest + fullTurn else rest

/-- Length of the arc from `p` over `q` to `r`. -/
def arcLength (p q r : Point) : Float :=
  let x₁ := Decimal.ofInt64 p.x
  let y₁ := Decimal.ofInt64 p.y
  let x₂ := Decimal.ofInt64 q.x
  let y₂ := Decimal.ofInt64 q.y
  let x₃ := Decimal.ofInt64 r.x
  let y₃ := Decimal.ofInt64 r.y
  let d := 2 * (x₁ * (y₂ - y₃) + x₂ * (y₃ - y₁) + x₃ * (y₁ - y₂))
  if d.abs < smallestGap then p.distance q + q.distance r
  else
    let s₁ := x₁ * x₁ + y₁ * y₁
    let s₂ := x₂ * x₂ + y₂ * y₂
    let s₃ := x₃ * x₃ + y₃ * y₃
    let x₀ := (s₁ * (y₂ - y₃) + s₂ * (y₃ - y₁) + s₃ * (y₁ - y₂)) / d
    let y₀ := (s₁ * (x₃ - x₂) + s₂ * (x₁ - x₃) + s₃ * (x₂ - x₁)) / d
    let radius := Decimal.hypotenuse (x₁ - x₀) (y₁ - y₀)
    let angle (x y : Float) : Float := Float.atan2 (y - y₀) (x - x₀)
    let first := angle x₁ y₁
    let toMid := withinTurn (angle x₂ y₂ - first)
    let toStop := withinTurn (angle x₃ y₃ - first)
    radius * (if toMid ≤ toStop then toStop else fullTurn - toStop)

def Track.length (t : Track) : Float :=
  match t.shape with
  | .arc mid => arcLength t.start mid t.stop
  | _ => t.start.distance t.stop

end CopperTidy
