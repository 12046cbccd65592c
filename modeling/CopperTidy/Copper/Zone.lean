import CopperTidy.Copper.Layer
import CopperTidy.Copper.Point

/-! # Filled zones

A zone is a set of filled polygons. A point lies inside a polygon when a ray from it to the right
crosses the outline an odd number of times.
-/

namespace CopperTidy
set_option autoImplicit false

/-- Does the ray from `p` to the right cross the edge from `a` to `b`? -/
def crosses (p a b : Point) : Bool :=
  let x := Decimal.ofInt64 p.x
  let y := Decimal.ofInt64 p.y
  let x₁ := Decimal.ofInt64 a.x
  let y₁ := Decimal.ofInt64 a.y
  let x₂ := Decimal.ofInt64 b.x
  let y₂ := Decimal.ofInt64 b.y
  (decide (y₂ > y) != decide (y₁ > y)) && decide (x < (x₁ - x₂) * (y - y₂) / (y₁ - y₂) + x₂)

/-- Parity of the crossings along a path that comes from `previous`. -/
def oddCrossings (p previous : Point) : List Point → Bool
  | [] => false
  | v :: rest => crosses p previous v ^^ oddCrossings p v rest

/-- Is `p` inside the closed polygon? An outline of less than three points holds nothing. -/
def insidePolygon (p : Point) (outline : List Point) : Bool :=
  match outline.getLast? with
  | none => false
  | some last => 3 ≤ outline.length && oddCrossings p last outline

structure Fill where
  layer : Layer
  outline : List Point
  deriving DecidableEq, Repr

structure Zone where
  net : UInt32
  fills : List Fill
  deriving DecidableEq, Repr

/-- Does the zone have copper at `p` on a layer between `top` and `bottom`? -/
def Zone.covers (z : Zone) (p : Point) (top bottom : Layer) : Bool :=
  z.fills.any fun fill =>
    (LayerSet.span top bottom).contains fill.layer && insidePolygon p fill.outline

end CopperTidy
