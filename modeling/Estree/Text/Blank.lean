import Estree.Text.Ranges

/-!
# Blanks

Blanks are the characters with the property `White_Space`. Four of them end a line, which matters
where a line break separates an operand from `++` or `--`.
-/

namespace Estree.Text

/-- `White_Space`: 25 code points. -/
def whiteSpace : CodeRanges :=
  [(0x9, 0xd), (0x20, 0x20), (0x85, 0x85), (0xa0, 0xa0), (0x1680, 0x1680), (0x2000, 0x200a),
   (0x2028, 0x2029), (0x202f, 0x202f), (0x205f, 0x205f), (0x3000, 0x3000)]

/-- Whether a character is a blank. -/
def isBlank (c : Char) : Bool :=
  whiteSpace.contains c

/-- Whether a character ends a line of an expression. -/
def isLineTerminator (c : Char) : Bool :=
  c == '\n' || c == '\r' || c == '\u2028' || c == '\u2029'

/-- Whether a character is a blank within a line. -/
def isInlineBlank (c : Char) : Bool :=
  isBlank c && !isLineTerminator c

theorem isBlank_of_isInlineBlank {c : Char} (h : isInlineBlank c = true) : isBlank c = true := by
  simp only [isInlineBlank, Bool.and_eq_true] at h
  exact h.1

end Estree.Text
