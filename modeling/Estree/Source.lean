import Estree.Number.Layout
import Estree.Grammar.Reader

/-!
# Canonical source

`Expr.toSource` writes a tree as source text with one spacing, and with parentheses only where the
text would be read differently without them. Every node has a level; an operand is put in
parentheses if its level is below what its place demands. A tree that no text is read as is refused
where the writing comes upon the defect.
-/

namespace Estree

/-- Why a tree has no source. -/
inductive Malformed where
  /-- A sequence of fewer than two expressions. -/
  | shortSequence
  /-- A member access by a name that is no identifier. -/
  | propertyNotIdentifier
  /-- A chain right within a chain. -/
  | nestedChain
  /-- `++` or `--` at something that is no place. -/
  | updateTarget
  /-- A number that no literal spells. -/
  | unspellable (value : Binary64)
deriving DecidableEq

/-- The wording of a defect. -/
def Malformed.message : Malformed → String
  | shortSequence => "sequence needs at least two expressions"
  | propertyNotIdentifier => "non-computed property must be an identifier"
  | nestedChain => "nested chain expression"
  | updateTarget => "update target must be an identifier or member expression"
  | unspellable value => "number literal " ++ Layout.plain.render value ++ " has no source form"

/-- The defect as one line of text. -/
def Malformed.display (malformed : Malformed) : String :=
  "Codegen error: " ++ malformed.message

/-! ## Levels -/

namespace Level

def sequence : Nat := 0
def conditional : Nat := 1
def unary : Nat := 15
def trailingUpdate : Nat := 16
def call : Nat := 17
def primary : Nat := 18

end Level

namespace InfixOperator

/-- The level of what the operator joins. -/
def level (operator : InfixOperator) : Nat :=
  1 + operator.precedence

/-- The least level of a left operand without parentheses. -/
def leftLevel (operator : InfixOperator) : Nat :=
  if operator.isRightAssociative then operator.level + 1 else operator.level

/-- The least level of a right operand without parentheses. -/
def rightLevel (operator : InfixOperator) : Nat :=
  if operator.isRightAssociative then operator.level else operator.level + 1

end InfixOperator

namespace Expr

/-- How tightly a node holds together. -/
def level : Expr → Nat
  | sequence .. => Level.sequence
  | conditional .. => Level.conditional
  | binary _ operator _ _ => (InfixOperator.binary operator).level
  | logical _ operator _ _ => (InfixOperator.logical operator).level
  | unary .. | update _ _ true _ => Level.unary
  | update _ _ false _ => Level.trailingUpdate
  | new .. | call .. | member .. | chain .. => Level.call
  | literal .. | identifier .. | this _ | array .. => Level.primary

/-- Whether a call would be met on the way down the objects: its arguments would be taken for those
of a `new` before it. -/
def hasCallInSpine : Expr → Bool
  | call .. => true
  | member _ object _ _ _ => object.hasCallInSpine
  | _ => false

/-! ## Where parentheses are needed -/

/-- Whether an operand is in parentheses at a place that demands a level. -/
def isGroupedAt (e : Expr) (least : Nat) : Bool :=
  e.level < least

/-- Whether the object of an access or the callee of a call is in parentheses. A chain is, because
it would go on into the link otherwise. -/
def isGroupedBeforeLink (e : Expr) : Bool :=
  e.isChain || e.isGroupedAt Level.call

/-- Whether the callee of a `new` is in parentheses. -/
def isGroupedAfterNew (e : Expr) : Bool :=
  e.isChain || e.hasCallInSpine || e.isGroupedAt Level.call

/-- Whether an operand is joined by a logical operator that clashes with the one beside it. -/
def clashesWith (e : Expr) : InfixOperator → Bool
  | .logical operator =>
    match e with
    | logical _ inner _ _ => operator.clashes inner
    | _ => false
  | .binary _ => false

def isUnary : Expr → Bool
  | unary .. => true
  | _ => false

/-- Whether a left operand is in parentheses. -/
def isGroupedBefore (e : Expr) (operator : InfixOperator) : Bool :=
  (operator == .binary .exp && e.isUnary) || e.clashesWith operator ||
    e.isGroupedAt operator.leftLevel

/-- Whether a right operand is in parentheses. -/
def isGroupedAfter (e : Expr) (operator : InfixOperator) : Bool :=
  e.clashesWith operator || e.isGroupedAt operator.rightLevel

/-- The spelling of a numeric literal of digits alone, to which a point after it would belong. -/
def bareDigits? : Expr → Option (List Char)
  | literal _ raw (.number _) => if raw.toList.all Char.isDigit then some raw.toList else none
  | _ => none

end Expr

/-! ## Pieces of text -/

namespace Source

/-- A text, in parentheses if it needs them. -/
def group (isGrouped : Bool) (text : List Char) : List Char :=
  if isGrouped then '(' :: (text ++ [')']) else text

/-- Texts with a comma and a space between them. -/
def separated : List (List Char) → List Char
  | [] => []
  | [text] => text
  | text :: rest => text ++ ',' :: ' ' :: separated rest

/-- Arguments in parentheses. -/
def argumentsText (texts : List (List Char)) : List Char :=
  '(' :: (separated texts ++ [')'])

/-- Whether a space keeps an operator and its operand apart: a word always needs one, `-` and `+`
before themselves. -/
def needsSpace (operator : UnaryOperator) (argument : List Char) : Bool :=
  operator.isWord ||
    (operator == .minus && argument.head? == some '-') ||
      (operator == .plus && argument.head? == some '+')

/-- A unary operator and its operand. -/
def unaryText (operator : UnaryOperator) (argument : List Char) : List Char :=
  operator.text.toList ++ (if needsSpace operator argument then ' ' :: argument else argument)

/-- Operands with an infix operator between them. -/
def infixText (operator : InfixOperator) (left right : List Char) : List Char :=
  left ++ ' ' :: (operator.text.toList ++ ' ' :: right)

/-- The text of a literal without a spelling. -/
def literalText : LiteralValue → Except Malformed (List Char)
  | .number value =>
    if !value.isFinite || value.isNegative then
      .error (.unspellable value)
    else
      .ok value.sourceText.toList
  | .boolean true => .ok ['t', 'r', 'u', 'e']
  | .boolean false => .ok ['f', 'a', 'l', 's', 'e']
  | .null => .ok ['n', 'u', 'l', 'l']

/-- The texts of elements. A hole at the end has a comma of its own. -/
def elementsText (elements : List (Option Expr)) (texts : List (List Char)) : List Char :=
  let endsInHole := elements.getLast?.any Option.isNone
  '[' :: (separated (if endsInHole then texts ++ [[]] else texts) ++ [']'])

end Source

/-! ## Trees -/

namespace Expr

open Source

mutual

/-- The source of a tree. -/
def sourceText : Expr → Except Malformed (List Char)
  | literal _ raw value => if raw.isEmpty then literalText value else .ok raw.toList
  | identifier _ name => .ok name.toList
  | this _ => .ok ['t', 'h', 'i', 's']
  | array _ elements => do
    return elementsText elements (← slotTexts elements)
  | sequence _ expressions => do
    if expressions.length < 2 then
      throw .shortSequence
    return separated (← operandTexts expressions)
  | conditional _ test consequent alternate => do
    let testText ← test.sourceText
    let consequentText ← consequent.sourceText
    let alternateText ← alternate.sourceText
    return group (test.isGroupedAt (Level.conditional + 1)) testText ++ ' ' :: '?' :: ' ' ::
      (group (consequent.isGroupedAt Level.conditional) consequentText ++ ' ' :: ':' :: ' ' ::
        group (alternate.isGroupedAt Level.conditional) alternateText)
  | new _ callee arguments => do
    let calleeText ← callee.sourceText
    let argumentTexts ← operandTexts arguments
    return 'n' :: 'e' :: 'w' :: ' ' ::
      (group callee.isGroupedAfterNew calleeText ++ argumentsText argumentTexts)
  | call _ callee arguments optional => do
    let calleeText ← callee.sourceText
    let argumentTexts ← operandTexts arguments
    return group callee.isGroupedBeforeLink calleeText ++
      ((if optional then ['?', '.'] else []) ++ argumentsText argumentTexts)
  | member _ object property true optional => do
    let objectText ← object.sourceText
    let propertyText ← property.sourceText
    return group object.isGroupedBeforeLink objectText ++
      ((⟨optional, true⟩ : Access).text.toList ++ (propertyText ++ [']']))
  | member _ object property false optional => do
    let objectText ←
      match object.bareDigits? with
      | some digits => pure (group true digits)
      | none => group object.isGroupedBeforeLink <$> object.sourceText
    match property with
    | identifier _ name =>
      return objectText ++ ((⟨optional, false⟩ : Access).text.toList ++ name.toList)
    | _ => throw .propertyNotIdentifier
  | chain _ expression => do
    if expression.isChain then
      throw .nestedChain
    expression.sourceText
  | update _ operator leading argument => do
    if !argument.isPlace then
      throw .updateTarget
    let argumentText ← argument.sourceText
    if leading then
      return operator.text.toList ++ argumentText
    else
      return argumentText ++ operator.text.toList
  | unary _ operator _ argument => do
    let argumentText ← argument.sourceText
    return unaryText operator (group (argument.isGroupedAt Level.unary) argumentText)
  | binary _ operator left right => do
    let leftText ← left.sourceText
    let rightText ← right.sourceText
    return infixText (.binary operator) (group (left.isGroupedBefore (.binary operator)) leftText)
      (group (right.isGroupedAfter (.binary operator)) rightText)
  | logical _ operator left right => do
    let leftText ← left.sourceText
    let rightText ← right.sourceText
    return infixText (.logical operator) (group (left.isGroupedBefore (.logical operator)) leftText)
      (group (right.isGroupedAfter (.logical operator)) rightText)

/-- The sources of trees between commas. -/
def operandTexts : List Expr → Except Malformed (List (List Char))
  | [] => .ok []
  | e :: rest => do
    let text ← e.sourceText
    return group (e.isGroupedAt Level.conditional) text :: (← operandTexts rest)

/-- The sources of elements between commas; that of a hole is empty. -/
def slotTexts : List (Option Expr) → Except Malformed (List (List Char))
  | [] => .ok []
  | none :: rest => do
    return [] :: (← slotTexts rest)
  | some e :: rest => do
    let text ← e.sourceText
    return group (e.isGroupedAt Level.conditional) text :: (← slotTexts rest)

end

/-- Writes a tree as source text. -/
def toSource (e : Expr) : Except Malformed String :=
  String.ofList <$> e.sourceText

end Expr

/-! ## Texts -/

/-- Why a text has no canonical form. -/
inductive CanonicalError where
  | unreadable (error : SyntaxError)
  | unwritable (malformed : Malformed)

/-- Reads a text and writes it in canonical form. -/
def canonical (source : String) : Except CanonicalError String :=
  match Expr.parse source with
  | .error error => .error (.unreadable error)
  | .ok e =>
    match e.toSource with
    | .error malformed => .error (.unwritable malformed)
    | .ok text => .ok text

/-- Puts a text into canonical form, then the outcome, and so on `times` times, up to the first
error. -/
def canonicalRepeatedly : (times : Nat) → (source : String) → List (Except CanonicalError String)
  | 0, _ => []
  | times + 1, source =>
    match canonical source with
    | .error error => [.error error]
    | .ok text => .ok text :: canonicalRepeatedly times text

end Estree
