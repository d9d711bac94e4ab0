import Estree.Cursor.Pattern
import Estree.Text.Blank
import Estree.Text.Utf8

/-!
# Cursors

A cursor is a place in a text: the characters that follow it and how many bytes precede it. It moves
over whole characters only, so its position never falls inside one.
-/

namespace Estree

/-- A place in a text. -/
structure Cursor where
  /-- How many bytes precede it. -/
  position : Nat
  /-- The characters that follow it. -/
  rest : List Char
deriving DecidableEq

namespace Cursor

/-- The start of a text. -/
def ofString (source : String) : Cursor := ⟨0, source.toList⟩

/-- The place that many characters further on. -/
def skip (cursor : Cursor) (count : Nat) : Cursor :=
  ⟨cursor.position + Text.utf8Size (cursor.rest.take count), cursor.rest.drop count⟩

/-- The place after the leading characters of a class. -/
def skipWhile (cursor : Cursor) (isMember : Char → Bool) : Cursor :=
  ⟨cursor.position + Text.utf8Size (cursor.rest.takeWhile isMember), cursor.rest.dropWhile isMember⟩

/-- Whether a pattern is found here. -/
def sees (cursor : Cursor) (pattern : Pattern) : Bool :=
  pattern.isAtStart cursor.rest

/-- What a pattern takes here, and the place after it; nothing if it is not found. -/
def take? (cursor : Cursor) (pattern : Pattern) : Option (List Char × Cursor) :=
  match pattern.piece cursor.rest with
  | [] => none
  | c :: cs => some (c :: cs, cursor.skip (pattern.length cursor.rest))

/-- The leading characters of a class, and the place after them; nothing if there are none. -/
def takeWhile? (cursor : Cursor) (isMember : Char → Bool) : Option (List Char × Cursor) :=
  match cursor.rest.takeWhile isMember with
  | [] => none
  | c :: cs => some (c :: cs, cursor.skipWhile isMember)

/-- The identifier here, keywords included. -/
def word? (cursor : Cursor) : Option (List Char) :=
  match Text.leadingWord cursor.rest with
  | [] => none
  | c :: cs => some (c :: cs)

/-- The identifier here, and the place after it. -/
def takeWord? (cursor : Cursor) : Option (List Char × Cursor) :=
  cursor.word?.map fun word => (word, cursor.skip word.length)

/-- The place after the blanks that are here; line ends stop it unless they are included. -/
def skipBlanks (cursor : Cursor) (lineEnds : Bool) : Cursor :=
  cursor.skipWhile (if lineEnds then Text.isBlank else Text.isInlineBlank)

@[simp] theorem ofString_position (source : String) : (ofString source).position = 0 := rfl

@[simp] theorem ofString_rest (source : String) : (ofString source).rest = source.toList := rfl

/-- Moving on keeps the count of bytes. -/
theorem skip_total (cursor : Cursor) (count : Nat) :
    (cursor.skip count).position + Text.utf8Size (cursor.skip count).rest =
      cursor.position + Text.utf8Size cursor.rest := by
  rw [skip, Nat.add_assoc, ← Text.utf8Size_append, List.take_append_drop]

theorem skipWhile_total (cursor : Cursor) (isMember : Char → Bool) :
    (cursor.skipWhile isMember).position + Text.utf8Size (cursor.skipWhile isMember).rest =
      cursor.position + Text.utf8Size cursor.rest := by
  rw [skipWhile, Nat.add_assoc, ← Text.utf8Size_append, List.takeWhile_append_dropWhile]

end Cursor

end Estree
