import Mathlib.Algebra.Ring.Int.Defs
import Mathlib.Algebra.Ring.Nat
import CopperTidy.Copper.Alignment

/-! # The test of alignment in machine words

The test of `Track.collinear` with each of its values held in a word of 128 bits: coordinates,
differences, signs and their products in signed words, magnitudes and their products in unsigned
ones. Where a value does not fit there is no result.
-/

namespace CopperTidy.Words
set_option autoImplicit false

def signed (n : Int) : Option Int := if -2 ^ 127 ≤ n ∧ n < 2 ^ 127 then some n else none

def unsigned (n : Nat) : Option Nat := if n < 2 ^ 128 then some n else none

def difference (a b : Int64) : Option Int := do
  let a ← signed a.toInt
  let b ← signed b.toInt
  signed (a - b)

def direction (t : Track) : Option (Int × Int) := do
  let dx ← difference t.stop.x t.start.x
  let dy ← difference t.stop.y t.start.y
  return (dx, dy)

def signProduct (a b : Int) : Option Int := do
  let a ← signed a.sign
  let b ← signed b.sign
  signed (a * b)

def sizeProduct (a b : Int) : Option Nat := do
  let a ← unsigned a.natAbs
  let b ← unsigned b.natAbs
  unsigned (a * b)

/-- All four products are formed, also where the signs decide. -/
def productsEqual (a b c d : Int) : Option Bool := do
  let sign₁ ← signProduct a b
  let sign₂ ← signProduct c d
  let size₁ ← sizeProduct a b
  let size₂ ← sizeProduct c d
  return sign₁ == sign₂ && size₁ == size₂

def parallel (dx₁ dy₁ dx₂ dy₂ : Int) : Option Bool :=
  if dx₁ = 0 then some (dx₂ == 0)
  else if dx₂ = 0 then some false
  else if dy₁ = 0 then some (dy₂ == 0)
  else if dy₂ = 0 then some false
  else productsEqual dy₁ dx₂ dx₁ dy₂

def collinear (t u : Track) : Option Bool := do
  let (dx₁, dy₁) ← direction t
  let (dx₂, dy₂) ← direction u
  parallel dx₁ dy₁ dx₂ dy₂

end CopperTidy.Words
