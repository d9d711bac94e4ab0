import Estree.Grammar.Rule

/-!
# Reading expressions

`Expr.parse` reads a text as one expression. The grammar is unfolded as often as its recursion can
go on a text of this length: between two characters that are taken, only so many productions can be
opened one inside the other.
-/

namespace Estree

/-- The grammar, unfolded so many times. -/
def Grammar.unfold : (fuel : Nat) → (depth : Nat) → (production : Production) →
    Scan production.Yield
  | 0, _, _ => Scan.fail .outOfFuel
  | fuel + 1, depth, production => Grammar.step (Grammar.unfold fuel) depth production

/-- More unfoldings than are needed to read a text of so many characters. -/
def Grammar.fuel (length : Nat) : Nat :=
  32 * (length + 1)

namespace Scan

/-- Reads from the cursor to the end of the text; how its sequence is read depends on its length. -/
def programOf {σ : Type} [HasCursor σ] (read : (length : Nat) → ScanOf σ (Option Expr)) :
    ScanOf σ Expr := do
  let length := (← ahead).length
  let e? ← read length
  skipBlanks
  match e?, ← ahead with
  | some e, [] => return e
  | none, [] => fail (.expected .expression)
  | _, c :: _ => fail (.unexpected c)

/-- Reads from the cursor to the end of the text, with at most `maxDepth` levels open at a time. -/
def program (maxDepth : Nat) : Scan Expr :=
  programOf fun length => Grammar.unfold (Grammar.fuel length) maxDepth (.sequence false)

end Scan

/-- What a caller allows. -/
structure Limits where
  /-- How many bytes a text may have, if that is limited. -/
  maxLength : Option Nat
  /-- How many levels may be open at a time. -/
  maxDepth : Nat
deriving DecidableEq

namespace Limits

/-- Texts of any length, and 256 levels. -/
def standard : Limits := ⟨none, 256⟩

/-- The limit that a text is too long for. -/
def exceeded? (limits : Limits) (source : String) : Option Nat :=
  limits.maxLength.filter (· < Text.utf8Size source.toList)

end Limits

namespace Expr

/-- Reads a text as one expression, within limits. -/
def parseWithin (limits : Limits) (source : String) : Except SyntaxError Expr :=
  match limits.exceeded? source with
  | some limit => .error ((⟨.tooLong limit, limit⟩ : Fault).toError source)
  | none =>
    match (Scan.program limits.maxDepth).run (Cursor.ofString source) with
    | .ok e _ => .ok e
    | .error fault _ => .error (fault.toError source)

/-- Reads a text as one expression, within the standard limits. -/
def parse (source : String) : Except SyntaxError Expr :=
  parseWithin .standard source

end Expr

/-! ## Parsers

A parser is a cursor with a count of the levels that are open. It can read more than once: every
call goes on where the last one has left the cursor, also one that has ended in a fault. The count
goes up before a production is read one level further down, and down again after it, whatever the
production has ended with. -/

/-- A place in a text, and how many levels are open there. -/
structure Parser where
  cursor : Cursor
  depth : Nat
deriving DecidableEq

instance : HasCursor Parser where
  cursor parser := parser.cursor
  moveTo parser cursor := { parser with cursor }
  cursor_moveTo _ _ := rfl

namespace Parser

/-- A parser at the start of a text. -/
def ofString (source : String) : Parser := ⟨.ofString source, 0⟩

/-- Reads one level further down, if fewer than `maxDepth` levels are open. -/
def nested {α : Type} (maxDepth : Nat) (scan : ScanOf Parser α) : ScanOf Parser α := fun parser =>
  if maxDepth ≤ parser.depth then
    Scan.fail .tooDeep parser
  else
    match scan { parser with depth := parser.depth + 1 } with
    | .ok a parser => .ok a { parser with depth := parser.depth - 1 }
    | .error fault parser => .error fault { parser with depth := parser.depth - 1 }

/-- The grammar, unfolded so many times. The parser knows what levels are left, so the productions
are not told. -/
def unfold (maxDepth : Nat) : (fuel : Nat) → (production : Production) →
    ScanOf Parser production.Yield
  | 0, _ => Scan.fail .outOfFuel
  | fuel + 1, production =>
    Grammar.stepWith (fun _ production => unfold maxDepth fuel production)
      (fun production => nested maxDepth (unfold maxDepth fuel production)) 0 production

/-- Reads from the cursor to the end of the text. -/
def program (maxDepth : Nat) : ScanOf Parser Expr :=
  Scan.programOf fun length => unfold maxDepth (Grammar.fuel length) (.sequence false)

/-- One call on a parser of `source`: what it answers, and the parser as it leaves it. -/
def call (source : String) (maxDepth : Nat) (parser : Parser) :
    Except SyntaxError Expr × Parser :=
  match (program maxDepth).run parser with
  | .ok e parser => (.ok e, parser)
  | .error fault parser => (.error (fault.toError source), parser)

/-- The answers of so many calls, one after the other. -/
def answers (source : String) (maxDepth : Nat) : (calls : Nat) → Parser →
    List (Except SyntaxError Expr)
  | 0, _ => []
  | calls + 1, parser =>
    let (answer, next) := parser.call source maxDepth
    answer :: answers source maxDepth calls next

/-- The parser as so many calls leave it. -/
def after (source : String) (maxDepth : Nat) : (calls : Nat) → Parser → Parser
  | 0, parser => parser
  | calls + 1, parser => after source maxDepth calls (parser.call source maxDepth).2

end Parser

/-- Reads `times` times, every time from where the cursor was left. -/
def Expr.parseRepeatedly (source : String) (maxDepth times : Nat) (cursor : Cursor) :
    List (Except SyntaxError Expr) :=
  Parser.answers source maxDepth times ⟨cursor, 0⟩

end Estree
