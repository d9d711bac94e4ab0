import Estree.Grammar.Token

/-!
# Leaves

Numbers and words: the nodes without nodes below them.
-/

namespace Estree

namespace Leaf

variable {σ : Type} [HasCursor σ]

/-- The power of ten of a number, if it has one. After its marker and sign there must be a digit. -/
def power : ScanOf σ (List Char) := do
  let marker ← Scan.piece .exponentMarker
  if marker.isEmpty then
    return []
  let sign ← Scan.piece .exponentSign
  let digits ← Scan.takeWhile Char.isDigit
  if digits.isEmpty then
    Scan.fail (.expected .exponentValue)
  return marker ++ sign ++ digits

/-- The spelling of a number. -/
def numberText : ScanOf σ (List Char) := do
  let whole ← Scan.takeWhile Char.isDigit
  let point ← Scan.piece (.char '.')
  let fraction ← if point.isEmpty then pure [] else Scan.takeWhile Char.isDigit
  return whole ++ point ++ fraction ++ (← power)

/-- A numeric literal. Its value is the double nearest to the decimal that it spells. -/
def number : ScanOf σ Expr := do
  let start ← Scan.position
  let raw ← numberText
  match Decimal.read? raw with
  | some decimal =>
    return .literal ⟨start, ← Scan.position⟩ (String.ofList raw) (.number (.ofDecimal decimal))
  | none => Scan.failAt start (.invalidNumber (String.ofList raw))

/-- The node of a word other than `new`: a keyword has a node of its own kind. -/
def ofWord (span : Span) (word : String) : Expr :=
  match word with
  | "this" => .this span
  | "true" => .literal span word (.boolean true)
  | "false" => .literal span word (.boolean false)
  | "null" => .literal span word .null
  | _ => .identifier span word

/-- The name after the point of a member access. Keywords are names there. -/
def propertyName : ScanOf σ Expr := do
  let start ← Scan.position
  let word ← Scan.require (← Scan.takeWord?) .propertyName
  return .identifier ⟨start, start + Text.utf8Size word⟩ (String.ofList word)

end Leaf

end Estree
