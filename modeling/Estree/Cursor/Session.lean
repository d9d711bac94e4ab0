import Estree.Cursor
import Estree.SyntaxError

/-!
# Cursor sessions

A session is a cursor in a source, together with a mark that it can go back to. A step asks
something, moves the cursor, or makes an error; only going back moves the cursor towards the start.
-/

namespace Estree

/-- A class of characters. -/
inductive CharClass where
  | digit
  | letter
  | blank
  | identifierStart
  | identifierPart
  | nonAscii
  | any
  | nothing
deriving DecidableEq

/-- Whether a character belongs to a class. Digits and letters are those of ASCII. -/
def CharClass.contains : CharClass → Char → Bool
  | digit, c => c.isDigit
  | letter, c => c.isAlpha
  | blank, c => Text.isBlank c
  | identifierStart, c => Text.isIdentifierStart c
  | identifierPart, c => Text.isIdentifierPart c
  | nonAscii, c => Text.isNonAscii c
  | any, _ => true
  | nothing, _ => false

namespace Cursor

/-- A step of a session. -/
inductive Step where
  | sees (pattern : Pattern)
  | take (pattern : Pattern)
  | expect (pattern : Pattern) (label : String)
  | takeWhile (isMember : Char → Bool)
  | skipBlanks (lineEnds : Bool)
  | takeWord
  | peekWord
  | peekChar
  | rest
  | source
  | size
  | isEmpty
  | isAtEnd
  | locate (offset : Nat)
  | fail (message : String)
  | failAt (offset : Nat) (message : String)
  | mark
  | reset

/-- What a step answers. -/
inductive Answer where
  | nothing
  | flag (value : Bool)
  | number (value : Nat)
  | text (text : String)
  | location (location : Text.Location)
  | error (error : SyntaxError)
deriving DecidableEq

/-- The text as an answer, if there is one. -/
def Answer.ofText? (text? : Option (List Char)) : Answer :=
  match text? with
  | some cs => .text (String.ofList cs)
  | none => .nothing

/-- A cursor in a source, and the place to go back to. -/
structure Session where
  source : String
  cursor : Cursor
  marked : Cursor

namespace Session

/-- A session at the start of a source, which is marked. -/
def start (source : String) : Session :=
  ⟨source, .ofString source, .ofString source⟩

/-- Moves to the place after what has been taken, if something has. -/
def after (session : Session) (taken? : Option (List Char × Cursor)) : Session :=
  match taken? with
  | some (_, cursor) => { session with cursor }
  | none => session

/-- Carries out a step. -/
def step (session : Session) : Step → Session × Answer
  | .sees pattern => (session, .flag (session.cursor.sees pattern))
  | .take pattern =>
    let taken? := session.cursor.take? pattern
    (session.after taken?, .ofText? (taken?.map (·.1)))
  | .expect pattern label =>
    let taken? := session.cursor.take? pattern
    match taken? with
    | some (text, _) => (session.after taken?, .text (String.ofList text))
    | none =>
      (session,
        .error (.atOffset session.source session.cursor.position ("expected " ++ label)))
  | .takeWhile isMember =>
    let taken? := session.cursor.takeWhile? isMember
    (session.after taken?, .ofText? (taken?.map (·.1)))
  | .skipBlanks lineEnds =>
    ({ session with cursor := session.cursor.skipBlanks lineEnds }, .nothing)
  | .takeWord =>
    let taken? := session.cursor.takeWord?
    (session.after taken?, .ofText? (taken?.map (·.1)))
  | .peekWord => (session, .ofText? session.cursor.word?)
  | .peekChar => (session, .ofText? (session.cursor.rest.head?.map ([·])))
  | .rest => (session, .text (String.ofList session.cursor.rest))
  | .source => (session, .text session.source)
  | .size => (session, .number (Text.utf8Size session.source.toList))
  | .isEmpty => (session, .flag session.source.toList.isEmpty)
  | .isAtEnd => (session, .flag session.cursor.rest.isEmpty)
  | .locate offset =>
    (session, .location (Text.Location.ofOffset session.source.toList offset))
  | .fail message =>
    (session, .error (.atOffset session.source session.cursor.position message))
  | .failAt offset message => (session, .error (.atOffset session.source offset message))
  | .mark => ({ session with marked := session.cursor }, .nothing)
  | .reset => ({ session with cursor := session.marked }, .nothing)

/-- Carries out steps one after the other: the position after each of them, and its answer. -/
def run (session : Session) : List Step → List (Nat × Answer)
  | [] => []
  | step :: rest =>
    let (next, answer) := session.step step
    (next.cursor.position, answer) :: next.run rest

end Session

end Cursor

end Estree
