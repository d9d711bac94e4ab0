import Estree.Text.XidStart
import Estree.Text.XidContinue

/-!
# Characters of identifiers

Identifiers are made of letters, digits, `$` and `_`. Outside ASCII the properties `XID_Start` and
`XID_Continue` decide, and the two zero-width joiners may stand inside a name.
-/

namespace Estree.Text

/-- Whether a character is outside ASCII. -/
def isNonAscii (c : Char) : Bool :=
  0x80 ≤ c.toNat

/-- Whether a character may begin an identifier. -/
def isIdentifierStart (c : Char) : Bool :=
  c.isAlpha || c == '$' || c == '_' || (isNonAscii c && xidStart.contains c)

/-- Whether a character may go on an identifier. -/
def isIdentifierPart (c : Char) : Bool :=
  isIdentifierStart c || c.isDigit ||
    (isNonAscii c && (xidContinueOnly.contains c || c == '\u200c' || c == '\u200d'))

theorem isIdentifierPart_of_start {c : Char} (h : isIdentifierStart c = true) :
    isIdentifierPart c = true := by
  simp [isIdentifierPart, h]

theorem isIdentifierPart_of_isDigit {c : Char} (h : c.isDigit = true) :
    isIdentifierPart c = true := by
  simp [isIdentifierPart, h]

/-- The identifier at the start of a text; empty if there is none. -/
def leadingWord : List Char → List Char
  | [] => []
  | c :: cs => if isIdentifierStart c then c :: cs.takeWhile isIdentifierPart else []

/-- A word is a piece of the text that it was read from. -/
theorem leadingWord_isPrefixOf (cs : List Char) : leadingWord cs <+: cs := by
  cases cs with
  | nil => exact List.prefix_rfl
  | cons c cs =>
    rw [leadingWord]
    split
    · exact List.cons_prefix_cons.2 ⟨rfl, List.takeWhile_prefix _⟩
    · exact List.nil_prefix

end Estree.Text
