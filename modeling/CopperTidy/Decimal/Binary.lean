/-! # Binary floating point, exactly

`parts` reads a 64-bit float as a sign, a mantissa and a power of two, and `ofBinary` packs such a
triple again, rounding to the nearest float with ties to the even mantissa. Everything in between
is arithmetic on natural numbers, so results can be stated exactly: `nearest` is the integer next to
a float, and `remainder` is the remainder itself.
-/

namespace CopperTidy.Decimal
set_option autoImplicit false

/-- What a float stands for; `finite s m e` is `m * 2 ^ e`, negated when `s` holds. -/
inductive Parts
  | nan
  | infinite (negative : Bool)
  | finite (negative : Bool) (mantissa : Nat) (exponent : Int)
  deriving DecidableEq, Repr

def parts (x : Float) : Parts :=
  let bits := x.toBits.toNat
  let negative := bits.testBit 63
  let field : Nat := bits / (1 <<< 52) % (1 <<< 11)
  let fraction := bits % (1 <<< 52)
  if field = 2047 then
    if fraction = 0 then .infinite negative else .nan
  else if field = 0 then .finite negative fraction (-1074)
  else .finite negative ((1 <<< 52) + fraction) (field - 1075)

def isFinite (x : Float) : Bool :=
  match parts x with
  | .finite .. => true
  | _ => false

/-! ## Rounding a quotient -/

/-- A non-negative rational; the denominator of every value built here is positive. -/
structure Ratio where
  num : Nat
  den : Nat
  deriving DecidableEq, Repr

namespace Ratio

/-- `r * base ^ e`. -/
def scale (r : Ratio) (base : Nat) (e : Int) : Ratio :=
  if 0 ≤ e then ⟨r.num * base.pow e.toNat, r.den⟩ else ⟨r.num, r.den * base.pow (-e).toNat⟩

def lt (a b : Ratio) : Bool := a.num * b.den < b.num * a.den

def le (a b : Ratio) : Bool := a.num * b.den ≤ b.num * a.den

def floor (r : Ratio) : Nat := r.num / r.den

/-- The nearest integer; a half goes to the even neighbour. -/
def nearestEven (r : Ratio) : Nat :=
  let q := r.num / r.den
  let twice := 2 * (r.num % r.den)
  if twice < r.den then q
  else if r.den < twice then q + 1
  else q + q % 2

/-- The nearest integer; a half goes up. -/
def nearestUp (r : Ratio) : Nat := (2 * r.num + r.den) / (2 * r.den)

end Ratio

/-- `m * 2 ^ e` as a ratio. -/
def magnitude (m : Nat) (e : Int) : Ratio := Ratio.scale ⟨m, 1⟩ 2 e

/-! ## Packing -/

def signBit (negative : Bool) : Nat := if negative then 1 <<< 63 else 0

/-- The float nearest to `m * 2 ^ e`; beyond the largest finite float it is infinite. -/
def ofBinary (negative : Bool) (m : Nat) (e : Int) : Float :=
  let target := max (-1074) (e + m.log2 - 52)
  let rounded := (Ratio.scale ⟨m, 1⟩ 2 (e - target)).nearestEven
  let carried := rounded = 1 <<< 53
  let mantissa := if carried then 1 <<< 52 else rounded
  let exponent := if carried then target + 1 else target
  let field := if mantissa < 1 <<< 52 then 0 else (exponent + 1075).toNat
  let bits := if 2047 ≤ field then 2047 <<< 52 else (field <<< 52) + mantissa % (1 <<< 52)
  Float.ofBits (UInt64.ofNat (signBit negative + bits))

/-! ## Integers -/

/-- `n` held between the least and the greatest 64-bit integer. -/
def clamp (n : Int) : Int64 :=
  if n < Int64.minValue.toInt then Int64.minValue
  else if Int64.maxValue.toInt < n then Int64.maxValue
  else Int64.ofInt n

/-- The nearest integer, a half going away from zero; what is not a number gives zero, and what is
too large the nearest 64-bit integer. -/
def nearest (x : Float) : Int64 :=
  match parts x with
  | .nan => 0
  | .infinite negative => if negative then Int64.minValue else Int64.maxValue
  | .finite negative m e =>
    let n : Int := (magnitude m e).nearestUp
    clamp (if negative then -n else n)

/-- The float nearest to a 64-bit integer. -/
def ofInt64 (n : Int64) : Float := Float.ofInt n.toInt

/-! ## Remainders -/

/-- `x` less the multiple of `y` next to it towards zero. The result is exact and has the sign of
`x`. -/
def remainder (x y : Float) : Float :=
  match parts x, parts y with
  | .finite negative m e, .finite _ n f =>
    if n = 0 then Float.ofBits 0x7FF8000000000000
    else
      let low := min e f
      ofBinary negative (m <<< (e - low).toNat % (n <<< (f - low).toNat)) low
  | .finite .., .infinite _ => x
  | _, _ => Float.ofBits 0x7FF8000000000000

end CopperTidy.Decimal
