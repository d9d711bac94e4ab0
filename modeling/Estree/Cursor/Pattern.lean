import Estree.Text.Identifier

/-!
# Patterns

A pattern says how many characters it takes at the start of a text. A pattern that takes none does
not match, so an optional piece that is absent never counts as found.
-/

namespace Estree

/-- Something to look for at the start of a text. -/
structure Pattern where
  /-- How many characters it takes there; zero if it does not match. -/
  length : List Char → Nat

namespace Pattern

/-- What the pattern takes at the start of a text; empty if it does not match. -/
def piece (pattern : Pattern) (text : List Char) : List Char :=
  text.take (pattern.length text)

/-- Whether the pattern is found at the start of a text. -/
def isAtStart (pattern : Pattern) (text : List Char) : Bool :=
  !(pattern.piece text).isEmpty

/-- What a pattern takes is the start of the text. -/
theorem piece_append (pattern : Pattern) (text : List Char) :
    pattern.piece text ++ text.drop (pattern.length text) = text :=
  List.take_append_drop _ _

/-- One character of a class. -/
def one (isMember : Char → Bool) : Pattern where
  length
    | [] => 0
    | c :: _ => if isMember c then 1 else 0

/-- This character. -/
def char (c : Char) : Pattern :=
  one (· == c)

/-- This text. -/
def text (s : String) : Pattern where
  length cs := if s.toList.isPrefixOf cs then s.toList.length else 0

/-- As many characters of a class as there are. -/
def run (isMember : Char → Bool) : Pattern where
  length cs := (cs.takeWhile isMember).length

/-- One pattern, and another one right after it. -/
def followedBy (first second : Pattern) : Pattern where
  length cs :=
    let n := first.length cs
    let m := second.length (cs.drop n)
    if n = 0 ∨ m = 0 then 0 else n + m

/-- The first of these patterns that matches. -/
def firstOf (patterns : List Pattern) : Pattern where
  length cs := ((patterns.map (·.length cs)).find? (· ≠ 0)).getD 0

/-! ## The patterns of expressions -/

/-- `++` or `--` -/
def updateOperator : Pattern :=
  firstOf [text "++", text "--"]

/-- What begins a member access. -/
def access : Pattern :=
  firstOf [text "?.[", text "?.", text ".", text "["]

/-- `?.` before a digit, where the question mark belongs to a conditional. -/
def questionBeforeFraction : Pattern :=
  followedBy (text "?.") (one Char.isDigit)

/-- A digit, or a point before a digit. -/
def numberStart : Pattern :=
  firstOf [one Char.isDigit, followedBy (char '.') (one Char.isDigit)]

/-- What begins the power of ten of a number. -/
def exponentMarker : Pattern :=
  one fun c => c == 'e' || c == 'E'

/-- The sign of a power of ten. -/
def exponentSign : Pattern :=
  one fun c => c == '+' || c == '-'

/-- A unary operator that is no word. -/
def unarySymbol : Pattern :=
  one fun c => c == '!' || c == '~' || c == '+' || c == '-'

/-- An infix operator that is no word. Longer ones come before those that they begin with. -/
def infixSymbol : Pattern :=
  firstOf
    [text ">>>", text "===", text "!==", text "**", text "<<", text ">>", text "<=", text ">=",
     text "==", text "!=", text "&&", text "||", text "??", one ("<>+-*/%&|^".toList.contains ·)]

/-- Digits. -/
def digits : Pattern :=
  run Char.isDigit

end Pattern

end Estree
