import Packrat.Number.Binary64

/-!
# The shortest decimal that reads back as a given number

* `RoundingInterval.shortest` — the fewest decimal digits inside the interval; of two numbers with
  as few digits the nearer one, and of two equally near ones the larger.
* `positional` — a decimal written without an exponent.
* `Binary64.text` — the text of a floating-point number.
-/

set_option autoImplicit false

namespace Packrat

/-- The decimal `digits · 10 ^ exponent`. -/
structure Decimal where
  digits : Nat
  exponent : Int
  deriving DecidableEq, Repr

namespace RoundingInterval

/-- The interval with lengths measured in units of `10 ^ e`. -/
def onGrid (i : RoundingInterval) (e : Int) : RoundingInterval :=
  if 0 ≤ e then { i with den := i.den * Nat.pow 10 e.toNat }
  else
    let up := Nat.pow 10 (-e).toNat
    { i with low := i.low * up, mid := i.mid * up, high := i.high * up }

/-- Whether the whole number `d` lies in the interval. -/
def admits (i : RoundingInterval) (d : Nat) : Bool :=
  if i.closed then decide (i.low ≤ d * i.den ∧ d * i.den ≤ i.high)
  else decide (i.low < d * i.den ∧ d * i.den < i.high)

/-- The whole number of the interval that is nearest to its middle. -/
def nearest? (i : RoundingInterval) : Option Nat :=
  let below := i.mid / i.den
  let above := below + 1
  if i.admits below && i.admits above then
    some (if i.mid - below * i.den < above * i.den - i.mid then below else above)
  else if i.admits below then some below
  else if i.admits above then some above
  else none

/-- The number of digits before the point of `mid / den`, or minus the zeros behind the point that
come before its first digit. -/
def magnitude (i : RoundingInterval) : Int :=
  if i.den ≤ i.mid then (Nat.toDigits 10 (i.mid / i.den)).length
  else
    -(((List.range 400).find? fun j => decide (i.den ≤ i.mid * Nat.pow 10 (j + 1))).getD 400 : Nat)

/-- The decimal with the fewest digits in the interval; seventeen are enough. -/
def shortest (i : RoundingInterval) : Decimal :=
  let k := i.magnitude
  let attempt (n : Nat) : Option Decimal :=
    let e := k - ((n + 1 : Nat) : Int)
    ((i.onGrid e).nearest?).map (⟨·, e⟩)
  ((List.range 17).findSome? attempt).getD ⟨0, 0⟩

end RoundingInterval

namespace Decimal

/-- Move up to `fuel` final zeros of the digits into the exponent. -/
def trim : Nat → Decimal → Decimal
  | 0, d => d
  | fuel + 1, d =>
    if d.digits ≠ 0 ∧ d.digits % 10 = 0 then trim fuel ⟨d.digits / 10, d.exponent + 1⟩ else d

/-- The decimal without an exponent and without needless zeros behind the point. -/
def positional (d : Decimal) : List Char :=
  let d := d.trim 20
  let ds := Nat.toDigits 10 d.digits
  if 0 ≤ d.exponent then ds ++ List.replicate d.exponent.toNat '0'
  else
    let places := (-d.exponent).toNat
    if places < ds.length then
      ds.take (ds.length - places) ++ '.' :: ds.drop (ds.length - places)
    else '0' :: '.' :: (List.replicate (places - ds.length) '0' ++ ds)

end Decimal

/-- The text of a number: the fewest digits that read back, never an exponent, and no point where
the number is whole. -/
def Binary64.text (x : Binary64) : List Char :=
  if x.isNaN then ['N', 'a', 'N']
  else
    let sign := if x.negative then ['-'] else []
    if x.isInfinite then sign ++ ['i', 'n', 'f']
    else if x.isZero then sign ++ ['0']
    else sign ++ x.rounding.shortest.positional

end Packrat
