import Estree.Number.Decimal

/-!
# Double-precision numbers

A double is kept as its 64 bits. Every finite one is a whole number of units of `2 ^ -1074`, the
least positive double, and the bits of the positive ones grow with the number of units. Rounding is
therefore done on whole numbers: `ofFraction` finds the double nearest to a fraction, of two equally
near ones the even one, and `ofDecimal` is that of a decimal.
-/

namespace Estree

/-- A double-precision number by its bits: sign, eleven bits of exponent, 52 bits of fraction. -/
structure Binary64 where
  bits : UInt64
deriving DecidableEq

namespace Binary64

/-- The bits without the sign. -/
def magnitude (x : Binary64) : Nat :=
  x.bits.toNat % Nat.pow 2 63

/-- Whether the sign bit is set. -/
def isNegative (x : Binary64) : Bool :=
  Nat.pow 2 63 ≤ x.bits.toNat

/-- The magnitude of an infinity. Above it are those of values that are no numbers. -/
def infinityMagnitude : Nat :=
  2047 * Nat.pow 2 52

def isFinite (x : Binary64) : Bool :=
  x.magnitude < infinityMagnitude

def isNaN (x : Binary64) : Bool :=
  infinityMagnitude < x.magnitude

/-- How many units there are in one. -/
def unitsPerOne : Nat :=
  Nat.pow 2 1074

/-- The absolute value in units of `2 ^ -1074`, for a finite number. -/
def units (x : Binary64) : Nat :=
  let exponent := x.magnitude / Nat.pow 2 52
  let fraction := x.magnitude % Nat.pow 2 52
  if exponent = 0 then fraction else (Nat.pow 2 52 + fraction) * Nat.pow 2 (exponent - 1)

/-- Whether a number has no fraction. -/
def isWhole (x : Binary64) : Bool :=
  x.isFinite && x.units % unitsPerOne == 0

/-- The quotient rounded to the nearest whole number, halves to the even one. -/
def divideToEven (dividend divisor : Nat) : Nat :=
  let quotient := dividend / divisor
  let remainder := dividend % divisor
  if 2 * remainder < divisor ∨ (2 * remainder = divisor ∧ quotient % 2 = 0) then
    quotient
  else
    quotient + 1

/-- The number with this magnitude and no sign. -/
def ofMagnitude (magnitude : Nat) : Binary64 :=
  ⟨UInt64.ofNat magnitude⟩

/-- The double nearest to `numerator / denominator`. Of the quotient in units only the leading 53
bits are kept; what rounds up over the last of them carries into the exponent by itself. -/
def ofFraction (numerator denominator : Nat) : Binary64 :=
  let dropped := (numerator * unitsPerOne / denominator).log2 - 52
  let kept := divideToEven (numerator * unitsPerOne) (denominator * Nat.pow 2 dropped)
  ofMagnitude (min (dropped * Nat.pow 2 52 + kept) infinityMagnitude)

/-- The double nearest to a decimal. A power of ten beyond every double is cut to one that still is,
so that the numbers at hand stay small. -/
def ofDecimal (decimal : Decimal) : Binary64 :=
  if decimal.significand = 0 then
    ofMagnitude 0
  else
    let size := decimal.significand.log2
    let exponent := max (min decimal.exponent 310) (-(size + 331))
    ofFraction (decimal.significand * Nat.pow 10 exponent.toNat) (Nat.pow 10 (-exponent).toNat)

end Binary64

end Estree
