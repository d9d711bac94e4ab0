import Estree.Cursor
import Estree.Grammar.Fault

/-!
# Scans

A scan reads something at a cursor and moves it on, or ends in a fault. Also a fault leaves the
cursor where the scan stood. The steps are those of any state that has a cursor.
-/

namespace Estree

/-- A state that has a cursor. -/
class HasCursor (σ : Type) where
  cursor : σ → Cursor
  /-- The state with its cursor at another place. -/
  moveTo : σ → Cursor → σ
  cursor_moveTo (state : σ) (place : Cursor) : cursor (moveTo state place) = place

/-- Reads an `α` at the cursor of a state. -/
abbrev ScanOf (σ : Type) := EStateM Fault σ

/-- Reads an `α` at a cursor. -/
abbrev Scan := ScanOf Cursor

instance : HasCursor Cursor where
  cursor cursor := cursor
  moveTo _ place := place
  cursor_moveTo _ _ := rfl

namespace Scan

variable {σ : Type} [HasCursor σ]

/-- The cursor. -/
def here : ScanOf σ Cursor :=
  return HasCursor.cursor (← get)

/-- Moves the cursor to a place. -/
def moveTo (place : Cursor) : ScanOf σ Unit :=
  modify (HasCursor.moveTo · place)

/-- Ends in a fault at an offset. -/
def failAt {α : Type} (offset : Nat) (cause : Cause) : ScanOf σ α :=
  throw ⟨cause, offset⟩

/-- Ends in a fault at the cursor. -/
def fail {α : Type} (cause : Cause) : ScanOf σ α := do
  failAt (← here).position cause

/-- The value, or the fault that it is missing here. -/
def require {α : Type} (value? : Option α) (what : Expected) : ScanOf σ α :=
  match value? with
  | some value => pure value
  | none => fail (.expected what)

/-- The offset of the cursor. -/
def position : ScanOf σ Nat :=
  return (← here).position

/-- The text that follows the cursor. -/
def ahead : ScanOf σ (List Char) :=
  return (← here).rest

/-- Moves over that many characters. -/
def skip (count : Nat) : ScanOf σ Unit := do
  moveTo ((← here).skip count)

/-- Moves over blanks and line ends. -/
def skipBlanks : ScanOf σ Unit := do
  moveTo ((← here).skipBlanks true)

/-- Moves over the blanks of this line. -/
def skipInlineBlanks : ScanOf σ Unit := do
  moveTo ((← here).skipBlanks false)

/-- Whether a pattern is found here. -/
def sees (pattern : Pattern) : ScanOf σ Bool :=
  return (← here).sees pattern

/-- Takes what a pattern takes; nothing if it is not found. -/
def piece (pattern : Pattern) : ScanOf σ (List Char) := do
  match (← here).take? pattern with
  | some (text, cursor) => moveTo cursor; return text
  | none => return []

/-- Takes a pattern, if it is found. -/
def takes (pattern : Pattern) : ScanOf σ Bool :=
  return !(← piece pattern).isEmpty

/-- Takes a pattern, or ends in the fault that it is missing here. -/
def expect (pattern : Pattern) (what : Expected) : ScanOf σ Unit := do
  if !(← takes pattern) then
    fail (.expected what)

/-- Takes the leading characters of a class. -/
def takeWhile (isMember : Char → Bool) : ScanOf σ (List Char) := do
  match (← here).takeWhile? isMember with
  | some (text, cursor) => moveTo cursor; return text
  | none => return []

/-- Takes the identifier here, keywords included. -/
def takeWord? : ScanOf σ (Option (List Char)) := do
  match (← here).takeWord? with
  | some (word, cursor) => moveTo cursor; return some word
  | none => return none

end Scan

end Estree
