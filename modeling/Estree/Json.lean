import Estree.Number.Layout

/-!
# JSON

Values of JSON and their two texts: a compact one without any space, and an indented one. Members of
objects are written in the order in which they are listed. A text is written from its end, before
what comes after it, so that a value deep inside is not copied once for each level around it.
-/

namespace Estree

/-- A JSON value. -/
inductive Json where
  | null
  | boolean (value : Bool)
  /-- A whole number that is not negative. -/
  | natural (value : Nat)
  /-- A double. What is not finite is written as `null`. -/
  | real (value : Binary64)
  | string (value : String)
  | array (items : List Json)
  | object (members : List (String × Json))

namespace Json

/-- Doubles keep `.0` if they are whole; from `10 ^ 16` on and below `10 ^ -5` they have an exponent
with a sign; of two equally near shortest decimals the even one is written. -/
def layout : Layout where
  isPositional exponent := -5 ≤ exponent && exponent < 16
  wholeEnding := ['.', '0']
  plusSign := ['+']
  tie := .even

/-- One character inside quotes. -/
def quotedChar (c : Char) : List Char :=
  if c = '"' then ['\\', '"']
  else if c = '\\' then ['\\', '\\']
  else if c = '\x08' then ['\\', 'b']
  else if c = '\t' then ['\\', 't']
  else if c = '\n' then ['\\', 'n']
  else if c = '\x0c' then ['\\', 'f']
  else if c = '\r' then ['\\', 'r']
  else if c.toNat < 0x20 then
    ['\\', 'u', '0', '0', Nat.digitChar (c.toNat / 16), Nat.digitChar (c.toNat % 16)]
  else [c]

/-- A string in quotes. -/
def quoted (s : String) : List Char :=
  '"' :: (s.toList.flatMap quotedChar ++ ['"'])

/-- The text of a value that has no parts; nothing for arrays and objects. -/
def scalarText : Json → List Char
  | null => ['n', 'u', 'l', 'l']
  | boolean true => ['t', 'r', 'u', 'e']
  | boolean false => ['f', 'a', 'l', 's', 'e']
  | natural value => Nat.toDigits 10 value
  | real value => if value.isFinite then (layout.render value).toList else ['n', 'u', 'l', 'l']
  | string value => quoted value
  | array _ | object _ => []

mutual

/-- Writes the compact text of a value before the text that comes after it. -/
def writeCompact : Json → (after : List Char) → List Char
  | array [], after => '[' :: ']' :: after
  | array (item :: rest), after => '[' :: writeCompact item (writeCompactItems rest after)
  | object [], after => '\x7b' :: '\x7d' :: after
  | object ((name, value) :: rest), after =>
    '\x7b' :: (quoted name ++ ':' :: writeCompact value (writeCompactMembers rest after))
  | null, after => scalarText .null ++ after
  | boolean value, after => scalarText (.boolean value) ++ after
  | natural value, after => scalarText (.natural value) ++ after
  | real value, after => scalarText (.real value) ++ after
  | string value, after => scalarText (.string value) ++ after

/-- Writes the further items of an array and its end. -/
def writeCompactItems : List Json → (after : List Char) → List Char
  | [], after => ']' :: after
  | item :: rest, after => ',' :: writeCompact item (writeCompactItems rest after)

/-- Writes the further members of an object and its end. -/
def writeCompactMembers : List (String × Json) → (after : List Char) → List Char
  | [], after => '\x7d' :: after
  | (name, value) :: rest, after =>
    ',' :: (quoted name ++ ':' :: writeCompact value (writeCompactMembers rest after))

end

/-- The start of a line at a level, two spaces for each. -/
def newLine (level : Nat) : List Char :=
  '\n' :: List.replicate (2 * level) ' '

mutual

/-- Writes the indented text of a value, of which the first line is at a level, before the text that
comes after it. -/
def writeIndented (level : Nat) : Json → (after : List Char) → List Char
  | array [], after => '[' :: ']' :: after
  | array (item :: rest), after =>
    '[' :: (newLine (level + 1) ++
      writeIndented (level + 1) item (writeIndentedItems level rest after))
  | object [], after => '\x7b' :: '\x7d' :: after
  | object ((name, value) :: rest), after =>
    '\x7b' :: (newLine (level + 1) ++ (quoted name ++ ':' :: ' ' ::
      writeIndented (level + 1) value (writeIndentedMembers level rest after)))
  | null, after => scalarText .null ++ after
  | boolean value, after => scalarText (.boolean value) ++ after
  | natural value, after => scalarText (.natural value) ++ after
  | real value, after => scalarText (.real value) ++ after
  | string value, after => scalarText (.string value) ++ after

/-- Writes the further items of an array at a level and its end. -/
def writeIndentedItems (level : Nat) : List Json → (after : List Char) → List Char
  | [], after => newLine level ++ ']' :: after
  | item :: rest, after =>
    ',' :: (newLine (level + 1) ++
      writeIndented (level + 1) item (writeIndentedItems level rest after))

/-- Writes the further members of an object at a level and its end. -/
def writeIndentedMembers (level : Nat) : List (String × Json) → (after : List Char) → List Char
  | [], after => newLine level ++ '\x7d' :: after
  | (name, value) :: rest, after =>
    ',' :: (newLine (level + 1) ++ (quoted name ++ ':' :: ' ' ::
      writeIndented (level + 1) value (writeIndentedMembers level rest after)))

end

/-- The text of a value without spaces. -/
def compact (json : Json) : String :=
  String.ofList (json.writeCompact [])

/-- The text of a value with one member or item on each line. -/
def pretty (json : Json) : String :=
  String.ofList (json.writeIndented 0 [])

end Json

end Estree
