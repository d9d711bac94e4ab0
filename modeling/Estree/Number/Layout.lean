import Estree.Number.Shortest

/-!
# Layouts of numbers

A layout says how the shortest digits of a double are set: which powers of ten are written out, how
the others are marked, and what a whole number looks like.
-/

namespace Estree

/-- How a number is written. -/
structure Layout where
  /-- Whether a number whose first digit stands at this power of ten is written without an
  exponent. -/
  isPositional : Int → Bool
  /-- What follows the digits of a whole number that is written without an exponent. -/
  wholeEnding : List Char
  /-- What stands before an exponent that is not negative. -/
  plusSign : List Char
  /-- Which of two equally near shortest decimals is written. -/
  tie : Tie

namespace Layout

/-- The digits of a number written out: `point` of them stand before the point, and zeros fill the
places between the digits and the point. -/
def positional (layout : Layout) (digits : List Char) (point : Int) : List Char :=
  if point ≤ 0 then
    '0' :: '.' :: (List.replicate (-point).toNat '0' ++ digits)
  else if digits.length ≤ point then
    digits ++ List.replicate (point.toNat - digits.length) '0' ++ layout.wholeEnding
  else
    digits.take point.toNat ++ '.' :: digits.drop point.toNat

/-- The digits of a number with one of them before the point, then the power of ten. -/
def scientific (layout : Layout) (digits : List Char) (exponent : Int) : List Char :=
  let fraction := if digits.length ≤ 1 then [] else '.' :: digits.drop 1
  let sign := if exponent < 0 then ['-'] else layout.plusSign
  digits.take 1 ++ fraction ++ 'e' :: (sign ++ Nat.toDigits 10 exponent.natAbs)

/-- A finite number without its sign. -/
def absolute (layout : Layout) (x : Binary64) : List Char :=
  if x.units = 0 then
    '0' :: layout.wholeEnding
  else
    let decimal := x.shortest layout.tie
    let digits := Nat.toDigits 10 decimal.significand
    let point := decimal.exponent + digits.length
    let significant := (digits.reverse.dropWhile (· == '0')).reverse
    if layout.isPositional (point - 1) then
      layout.positional significant point
    else
      layout.scientific significant (point - 1)

/-- A number with its sign; `inf` and `NaN` are written so in every layout. -/
def render (layout : Layout) (x : Binary64) : String :=
  let sign := if x.isNegative then ['-'] else []
  if x.isNaN then
    "NaN"
  else if x.isFinite then
    String.ofList (sign ++ layout.absolute x)
  else
    String.ofList (sign ++ ['i', 'n', 'f'])

/-- All digits written out, and nothing after a whole number. -/
def plain : Layout where
  isPositional _ := true
  wholeEnding := []
  plusSign := []
  tie := .upper

end Layout

namespace Binary64

/-- A number as source text writes it: a whole number below `10 ^ 15` by its digits, so that a zero
loses its sign, and any other by its shortest digits, all places written out. -/
def sourceText (x : Binary64) : String :=
  if x.isWhole ∧ x.units < Nat.pow 10 15 * unitsPerOne then
    let whole := x.units / unitsPerOne
    let sign := if x.isNegative ∧ whole ≠ 0 then ['-'] else []
    String.ofList (sign ++ Nat.toDigits 10 whole)
  else
    Layout.plain.render x

end Binary64

end Estree
