import Estree.Expr
import Estree.Text.Utf8

/-!
# Pieces of a text

The piece of a text that stands at a span, and the text with another piece there. Spans count bytes
and texts are made of characters, so there is such a piece only if the span begins and ends between
characters. Wherever a text is known as three pieces one after the other, `slice?_eq` and
`replaced?_eq` tell the middle one and put another one in its place.
-/

namespace Estree

namespace Span

/-- The piece of the text at the span, if the span begins and ends between characters of it. -/
def slice? (span : Span) (source : String) : Option String := do
  let before ← Text.takeBytes? span.start source.toList
  let piece ← Text.takeBytes? (span.stop - span.start) (source.toList.drop before.length)
  return String.ofList piece

/-- The text with another piece at the span. -/
def replaced? (span : Span) (source piece : String) : Option String := do
  let before ← Text.takeBytes? span.start source.toList
  let old ← Text.takeBytes? (span.stop - span.start) (source.toList.drop before.length)
  return String.ofList
    (before ++ (piece.toList ++ source.toList.drop (before.length + old.length)))

variable {span : Span} {source : String} {before old after : List Char}

/-- The piece in the middle is the one at its span. -/
theorem slice?_eq (hsource : source.toList = before ++ (old ++ after))
    (hstart : Text.utf8Size before = span.start)
    (hstop : span.start + Text.utf8Size old = span.stop) :
    span.slice? source = some (String.ofList old) := by
  have hsize : span.stop - span.start = Text.utf8Size old := by omega
  have hdrop : (before ++ (old ++ after)).drop before.length = old ++ after := List.drop_left
  rw [slice?, hsource, ← hstart, Text.takeBytes?_append, hstart, hsize]
  show (Text.takeBytes? _ ((before ++ (old ++ after)).drop before.length)).bind _ = _
  rw [hdrop, Text.takeBytes?_append]
  rfl

/-- Another piece in the middle leaves those around it as they are. -/
theorem replaced?_eq (piece : String) (hsource : source.toList = before ++ (old ++ after))
    (hstart : Text.utf8Size before = span.start)
    (hstop : span.start + Text.utf8Size old = span.stop) :
    span.replaced? source piece = some (String.ofList (before ++ (piece.toList ++ after))) := by
  have hsize : span.stop - span.start = Text.utf8Size old := by omega
  have hdrop : (before ++ (old ++ after)).drop before.length = old ++ after := List.drop_left
  have hafter : (before ++ (old ++ after)).drop (before.length + old.length) = after := by
    rw [← List.drop_drop, hdrop, List.drop_left]
  rw [replaced?, hsource, ← hstart, Text.takeBytes?_append, hstart, hsize]
  show (Text.takeBytes? _ ((before ++ (old ++ after)).drop before.length)).bind _ = _
  rw [hdrop, Text.takeBytes?_append]
  show some (String.ofList (before ++ (piece.toList ++
    (before ++ (old ++ after)).drop (before.length + old.length)))) = _
  rw [hafter]

end Span

end Estree
