import Estree.Text.Location

/-!
# Syntax errors

What is wrong with a text and where. The line and the column are those of the offset.
-/

namespace Estree

/-- A message about an offset into a text, with the place that people know the offset by. -/
structure SyntaxError where
  message : String
  offset : Nat
  location : Text.Location
deriving DecidableEq

namespace SyntaxError

/-- An error at an offset into `source`. The offset is kept even if it lies outside. -/
def atOffset (source : String) (offset : Nat) (message : String) : SyntaxError :=
  ⟨message, offset, Text.Location.ofOffset source.toList offset⟩

/-- The error as one line of text. -/
def display (error : SyntaxError) : String :=
  "Syntax error at line " ++ error.location.line.repr ++ ", column " ++
    error.location.column.repr ++ ": " ++ error.message

end SyntaxError

end Estree
