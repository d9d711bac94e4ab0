import Estree.Number.Layout
import Estree.Text.DefaultIgnorable
import Estree.Text.GraphemeExtend

/-!
# Dumps

A dump shows a value with the names of its constructors and fields, every field on a line of its own
and four spaces for each level.
-/

namespace Estree

/-- A value to be dumped. -/
inductive Dump where
  /-- A text that stands for itself. -/
  | atom (text : String)
  /-- A constructor with named fields. -/
  | record (name : String) (fields : List (String × Dump))
  /-- A constructor with one part that has no name. -/
  | wrapped (name : String) (part : Dump)
  | list (items : List Dump)

namespace Dump

/-- Doubles keep `.0` if they are whole; from `10 ^ 16` on and below `10 ^ -4` they have an
exponent; of two equally near shortest decimals the upper one is written. -/
def layout : Layout where
  isPositional exponent := -4 ≤ exponent && exponent < 16
  wholeEnding := ['.', '0']
  plusSign := []
  tie := .upper

/-- Whether a character is a halfwidth sound mark. These two extend the character before them, but
each fills a cell of its own. -/
def isSoundMark (c : Char) : Bool :=
  c == '\uff9e' || c == '\uff9f'

/-- Whether a character is shown by its number. Strings in trees hold characters of identifiers and
numbers; of these the ignorable ones have no shape at all, and those that extend others, the sound
marks apart, none of their own. -/
def isShownByNumber (c : Char) : Bool :=
  Text.defaultIgnorable.contains c || (Text.graphemeExtend.contains c && !isSoundMark c)

/-- One character inside quotes. -/
def quotedChar (c : Char) : List Char :=
  if c = '"' then ['\\', '"']
  else if c = '\\' then ['\\', '\\']
  else if isShownByNumber c then
    '\\' :: 'u' :: '\x7b' :: (Nat.toDigits 16 c.toNat ++ ['\x7d'])
  else [c]

/-- A string in quotes. -/
def quoted (s : String) : Dump :=
  .atom (String.ofList ('"' :: (s.toList.flatMap quotedChar ++ ['"'])))

/-- A truth value. -/
def boolean (value : Bool) : Dump :=
  .atom (if value then "true" else "false")

/-- The start of a line at a level, four spaces for each. -/
def newLine (level : Nat) : List Char :=
  '\n' :: List.replicate (4 * level) ' '

mutual

/-- Writes the text of a value, of which the first line is at a level, before the text that comes
after it. -/
def write (level : Nat) : Dump → (after : List Char) → List Char
  | atom text, after => text.toList ++ after
  | record name fields, after =>
    name.toList ++ ' ' :: '\x7b' ::
      writeFields (level + 1) fields (newLine level ++ '\x7d' :: after)
  | wrapped name part, after =>
    name.toList ++ '(' :: (newLine (level + 1) ++
      part.write (level + 1) (',' :: (newLine level ++ ')' :: after)))
  | list [], after => '[' :: ']' :: after
  | list (item :: rest), after =>
    '[' :: (newLine (level + 1) ++
      item.write (level + 1) (',' :: writeItems (level + 1) rest (newLine level ++ ']' :: after)))

/-- Writes fields, each on lines of its own at a level. -/
def writeFields (level : Nat) : List (String × Dump) → (after : List Char) → List Char
  | [], after => after
  | (name, value) :: rest, after =>
    newLine level ++ (name.toList ++ ':' :: ' ' ::
      value.write level (',' :: writeFields level rest after))

/-- Writes items, each on lines of its own at a level. -/
def writeItems (level : Nat) : List Dump → (after : List Char) → List Char
  | [], after => after
  | item :: rest, after => newLine level ++ item.write level (',' :: writeItems level rest after)

end

/-- The text of a dump. -/
def render (dump : Dump) : String :=
  String.ofList (dump.write 0 [])

end Dump

end Estree
