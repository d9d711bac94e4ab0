import Estree.Number.Binary64

/-!
# The shortest decimal of a double

Among the decimals that read back as a given double, those with the fewest digits are looked for,
and of these the one nearest to it. For one, two, … seventeen digits the two neighbours of the
double on the grid of decimals with so many digits are read back; the first grid with a hit has the
answer. Where both neighbours read back and are equally near, the layout that asks says which one it
wants.
-/

namespace Estree

/-- Which of two equally near neighbours is taken. -/
inductive Tie where
  | upper
  | even
deriving DecidableEq

namespace Tie

/-- Whether the upper neighbour is taken, if the lower one has this significand. -/
def takesUpper : Tie → Nat → Bool
  | upper, _ => true
  | even, lower => lower % 2 == 1

end Tie

namespace Binary64

/-- The exact value of a finite number, without its sign. -/
def exactDecimal (x : Binary64) : Decimal :=
  ⟨x.units * Nat.pow 5 1074, -1074⟩

/-- The power of ten of the first digit: `10 ^ e ≤ x < 10 ^ (e + 1)` for a finite positive
number. -/
def decimalExponent (x : Binary64) : Int :=
  ((Nat.toDigits 10 (x.units * Nat.pow 10 340 / unitsPerOne)).length : Int) - 341

/-- The one of two decimals that reads back as a number, if one does; if both do, the preferred
one. -/
def readBack? (x : Binary64) (lower upper : Decimal) (prefersUpper : Bool) : Option Decimal :=
  match ofDecimal lower == ofMagnitude x.magnitude, ofDecimal upper == ofMagnitude x.magnitude with
  | true, true => some (if prefersUpper then upper else lower)
  | true, false => some lower
  | false, true => some upper
  | false, false => none

/-- The neighbour of a number on the grid of decimals with `count` digits that reads back as it, if
one does; the nearer one if both do. -/
def neighbour? (tie : Tie) (x : Binary64) (count : Nat) : Option Decimal :=
  let exponent := x.decimalExponent - count + 1
  let dividend := x.units * Nat.pow 10 (-exponent).toNat
  let divisor := unitsPerOne * Nat.pow 10 exponent.toNat
  let lower : Decimal := ⟨dividend / divisor, exponent⟩
  let upper : Decimal := ⟨dividend / divisor + 1, exponent⟩
  let twice := 2 * (dividend % divisor)
  let upperIsNearer := divisor < twice || (divisor == twice && tie.takesUpper lower.significand)
  x.readBack? lower upper upperIsNearer

/-- The shortest decimal that reads back as a finite number without its sign. -/
def shortest (tie : Tie) (x : Binary64) : Decimal :=
  ((List.range' 1 17).findSome? (neighbour? tie x)).getD x.exactDecimal

end Binary64

end Estree
