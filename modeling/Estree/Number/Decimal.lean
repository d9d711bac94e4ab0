/-!
# Decimals

A decimal is a whole number times a power of ten. A numeric literal spells one: digits with an
optional point among them, then optionally `e` and a power of ten.
-/

namespace Estree

/-- The number `significand * 10 ^ exponent`. -/
structure Decimal where
  significand : Nat
  exponent : Int
deriving DecidableEq

namespace Decimal

/-- The whole number spelled by digits; zero if there are none. -/
def ofDigits (digits : List Char) : Nat :=
  Nat.ofDigitChars 10 digits 0

/-- Reads a power of ten: an optional sign and at least one digit. -/
def readExponent? (text : List Char) : Option Int :=
  let read (sign : Int) (digits : List Char) : Option Int :=
    if digits ≠ [] ∧ digits.all Char.isDigit then some (sign * ofDigits digits) else none
  match text with
  | '+' :: digits => read 1 digits
  | '-' :: digits => read (-1) digits
  | digits => read 1 digits

/-- The digits before the point, the digits after it, and what follows them. -/
def splitDigits (text : List Char) : List Char × List Char × List Char :=
  let whole := text.takeWhile Char.isDigit
  match text.dropWhile Char.isDigit with
  | '.' :: rest => (whole, rest.takeWhile Char.isDigit, rest.dropWhile Char.isDigit)
  | rest => (whole, [], rest)

/-- Reads a decimal: `digits [. digits] [(e|E) [+|-] digits]` with a digit before or after the
point. Nothing may follow it. -/
def read? (text : List Char) : Option Decimal :=
  let (whole, fraction, rest) := splitDigits text
  let scaled (power : Int) : Decimal := ⟨ofDigits (whole ++ fraction), power - fraction.length⟩
  if whole ++ fraction = [] then
    none
  else
    match rest with
    | [] => some (scaled 0)
    | marker :: power =>
      if marker = 'e' ∨ marker = 'E' then (readExponent? power).map scaled else none

end Decimal

end Estree
