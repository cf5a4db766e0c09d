/-!
# Binary floating-point numbers of 64 bits

* `Binary64` — a number by its bit pattern: sign, eleven bits of exponent, 52 bits of fraction.
* `Binary64.same` — equality of numbers: no NaN equals anything, the two zeros are equal.
* `Binary64.rounding` — for a finite number other than zero, the interval of reals that round to it.
-/

set_option autoImplicit false

namespace Packrat

/-- A floating-point number of 64 bits. -/
structure Binary64 where
  bits : UInt64
  deriving DecidableEq, Repr

/-- The reals between `low / den` and `high / den`, around `mid / den`; the ends count if
`closed`. -/
structure RoundingInterval where
  low : Nat
  mid : Nat
  high : Nat
  den : Nat
  closed : Bool
  deriving DecidableEq, Repr

namespace Binary64

/-- The sign bit. -/
def negative (x : Binary64) : Bool := decide (Nat.pow 2 63 ≤ x.bits.toNat)

/-- The exponent bits. -/
def exponentField (x : Binary64) : Nat := x.bits.toNat / Nat.pow 2 52 % Nat.pow 2 11

/-- The fraction bits. -/
def fractionField (x : Binary64) : Nat := x.bits.toNat % Nat.pow 2 52

/-- Not a number. -/
def isNaN (x : Binary64) : Bool := x.exponentField == 2047 && x.fractionField != 0

/-- One of the two infinities. -/
def isInfinite (x : Binary64) : Bool := x.exponentField == 2047 && x.fractionField == 0

/-- One of the two zeros. -/
def isZero (x : Binary64) : Bool := x.exponentField == 0 && x.fractionField == 0

/-- Equality as numbers. -/
def same (x y : Binary64) : Bool :=
  !x.isNaN && !y.isNaN && (x.bits == y.bits || (x.isZero && y.isZero))

/-- The integer significand: subnormal numbers have no hidden bit. -/
def significand (x : Binary64) : Nat :=
  if x.exponentField = 0 then x.fractionField else x.fractionField + Nat.pow 2 52

/-- A finite number is `significand · 2 ^ (scale - 1074)` in absolute value. -/
def scale (x : Binary64) : Nat := x.exponentField - 1

/-- The reals that round to the absolute value of a finite number.  The gap to the number below is
half as wide at a power of two; a tie goes to the number with an even significand. -/
def rounding (x : Binary64) : RoundingInterval :=
  let unit := Nat.pow 2 x.scale
  let mid := 4 * x.significand * unit
  let below := if x.fractionField = 0 ∧ 1 < x.exponentField then unit else 2 * unit
  ⟨mid - below, mid, mid + 2 * unit, Nat.pow 2 1076, x.significand % 2 == 0⟩

end Binary64

end Packrat
