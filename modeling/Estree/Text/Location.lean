import Estree.Text.Utf8

/-!
# Lines and columns

A place in a text is shown to people as a line and a column, both counted from one. Only `\n` begins
a new line here, and a column counts characters, not bytes.
-/

namespace Estree.Text

/-- A line and a column, both counted from one. -/
structure Location where
  line : Nat
  column : Nat
deriving DecidableEq

namespace Location

/-- Where every text starts. -/
def start : Location := ⟨1, 1⟩

/-- Where the character after `c` stands, if `c` stands here. -/
def next (here : Location) (c : Char) : Location :=
  if c = '\n' then ⟨here.line + 1, 1⟩ else ⟨here.line, here.column + 1⟩

/-- Where the text that follows these characters stands. -/
def after (before : List Char) : Location :=
  before.foldl next start

@[simp] theorem after_nil : after [] = start := rfl

theorem after_concat (before : List Char) (c : Char) :
    after (before ++ [c]) = (after before).next c := by
  simp [after]

/-- The location of an offset into a text. An offset past the end or inside a character gives the
location of the end. -/
def ofOffset (text : List Char) (offset : Nat) : Location :=
  after ((takeBytes? offset text).getD text)

theorem ofOffset_utf8Size (before rest : List Char) :
    ofOffset (before ++ rest) (utf8Size before) = after before := by
  rw [ofOffset, takeBytes?_append, Option.getD_some]

end Location

end Estree.Text
