import Estree.Grammar.Production

/-!
# Rules of the grammar

How each production is read, given how all of them are read: `Grammar.step` is one unfolding of the
grammar. Four productions go one level further down, and no others; where no level is left, they end
in the fault `tooDeep`.
-/

namespace Estree

/-- How every production is read, given how many levels may still be opened. -/
abbrev Grammar (σ : Type := Cursor) :=
  Nat → (production : Production) → ScanOf σ production.Yield

namespace Grammar

variable {σ : Type} [HasCursor σ]

/-- Reads a production one level further down. -/
def nested (g : Grammar) (depth : Nat) (production : Production) : Scan production.Yield :=
  match depth with
  | 0 => Scan.fail .tooDeep
  | depth + 1 => g depth production

/-! ## Sequences, conditionals and operators -/

/-- Expressions separated by commas. A group has at least one; it is no node of its own, but a
sequence that it encloses reaches from parenthesis to parenthesis. -/
def sequence (g : Grammar σ) (depth : Nat) (grouped : Bool) : ScanOf σ (Option Expr) := do
  Scan.skipBlanks
  let start ← Scan.position
  if grouped then
    Scan.expect (.char '(') .openParen
  let expressions ← g depth (.expressions true)
  if grouped then
    Scan.expect (.char ')') .closeParen
    if expressions.isEmpty then
      Scan.failAt start (.expected .expressionWithinParen)
  match expressions with
  | [] => return none
  | [e] => return some e
  | first :: rest =>
    let stop ← Scan.position
    let inner : Span := ⟨first.span.start, (rest.getLastD first).span.stop⟩
    return some (.sequence (if grouped then ⟨start, stop⟩ else inner) (first :: rest))

/-- The expressions of a sequence. None of several may be blank. -/
def expressions (g : Grammar σ) (depth : Nat) (isFirst : Bool) : ScanOf σ (List Expr) := do
  let e? ← g depth .expression
  if e?.isNone && !isFirst then
    Scan.fail (.expected .expressionAfterComma)
  Scan.skipBlanks
  let comma ← Scan.position
  if ← Scan.takes (.char ',') then
    match e? with
    | some e => return e :: (← g depth (.expressions false))
    | none => Scan.failAt comma (.expected .expressionBeforeComma)
  else
    return e?.toList

/-- Operands of any operators, as the test of a conditional if a question mark follows. -/
def conditional (g : Grammar σ) (depth : Nat) : ScanOf σ (Option Expr) := do
  let test? := (← g depth (.operands 1)).map (·.expr)
  Scan.skipBlanks
  let question ← Scan.position
  if !(← Scan.takes (.char '?')) then
    return test?
  let some test := test? | Scan.failAt question (.expected .testExpression)
  let consequent ← Scan.require (← g depth .expression) .consequentExpression
  Scan.skipBlanks
  Scan.expect (.char ':') .colon
  let alternate ← Scan.require (← g depth .expression) .alternateExpression
  return some (.conditional ⟨test.span.start, alternate.span.stop⟩ test consequent alternate)

/-- A left operand and all that is joined to it. -/
def climb (g : Grammar σ) (depth : Nat) (least : Nat) : ScanOf σ (Option Climbed) := do
  Scan.skipBlanks
  let isBareUnary := (Token.unaryOperator? (← Scan.ahead)).isSome
  match ← g depth .unary with
  | none => return none
  | some left => return some (← g depth (.infixes least ⟨left, none⟩ isBareUnary))

/-- Joins right operands to the left one while an operator follows that binds tightly enough. -/
def infixes (g : Grammar σ) (depth : Nat) (least : Nat) (left : Climbed) (isBareUnary : Bool) :
    ScanOf σ Climbed := do
  Scan.skipBlanks
  let some operator := Token.infixOperator? (← Scan.ahead) | return left
  if operator.precedence < least then
    return left
  if isBareUnary && operator == .binary .exp then
    Scan.failAt left.expr.span.start .unaryBeforeExponent
  let start ← Scan.position
  Scan.skip operator.text.length
  let right ← Scan.require (← g depth (.operands operator.rightPrecedence)) .rightOperand
  let joined := operator.join left.expr right.expr
  match operator with
  | .binary _ => g depth (.infixes least ⟨joined, none⟩ false)
  | .logical logical =>
    if left.clashes logical || right.clashes logical then
      Scan.failAt start .mixedNullish
    g depth (.infixes least ⟨joined, some logical⟩ false)

/-- Unary operators and the token that they apply to. -/
def unaryForm (g : Grammar σ) (depth : Nat) : ScanOf σ (Option Expr) := do
  Scan.skipBlanks
  let some operator := Token.unaryOperator? (← Scan.ahead) | g depth .token
  let start ← Scan.position
  Scan.skip operator.text.length
  let argument ← Scan.require (← g depth .unary) .unaryOperand
  return some (.unary ⟨start, argument.span.stop⟩ operator true argument)

/-! ## Tokens, member accesses and calls -/

/-- A place with `++` or `--` after it, which has been taken. -/
def trailingUpdate (operator : UpdateOperator) (argument : Expr) : ScanOf σ Expr := do
  if !argument.isPlace then
    Scan.failAt argument.span.start (.expected .place)
  return .update ⟨argument.span.start, ← Scan.position⟩ operator false argument

/-- A primary expression with its member accesses and calls. An update operator after it has to
stand on the same line. -/
def token (g : Grammar σ) (depth : Nat) : ScanOf σ (Option Expr) := do
  Scan.skipBlanks
  let some primary ← g depth .primary | return none
  let node := (← g depth (.links ⟨primary, false⟩)).finish
  Scan.skipInlineBlanks
  match ← Token.takeUpdate? with
  | some operator => return some (← trailingUpdate operator node)
  | none => return some node

/-- Member accesses and calls, as many as follow. The blanks after the last one are not taken. -/
def links (g : Grammar σ) (depth : Nat) (before : Links) : ScanOf σ Links := do
  let mark ← Scan.here
  Scan.skipBlanks
  match ← Token.takeAccess? with
  | some access => g depth (.links (← g depth (.member before access)))
  | none =>
    if ← Scan.takes (.char '(') then
      g depth (.links (← g depth (.call before false)))
    else
      Scan.moveTo mark
      return before

/-- Goes on with a member access if one follows. -/
def whenAccess (before : Links) (follow : Access → ScanOf σ Links) : ScanOf σ Links := do
  let mark ← Scan.here
  Scan.skipBlanks
  match ← Token.takeAccess? with
  | some access => follow access
  | none =>
    Scan.moveTo mark
    return before

/-- One member access of which the beginning has been taken, and those that follow. An opening
parenthesis instead of a name makes it a call. -/
def accesses (g : Grammar σ) (depth : Nat) (before : Links) (access : Access) : ScanOf σ Links := do
  let hasOptional := before.hasOptional || access.optional
  let further (property : Expr) (stop : Nat) : ScanOf σ Links :=
    let span : Span := ⟨before.node.span.start, stop⟩
    let node := .member span before.node property access.computed access.optional
    whenAccess ⟨node, hasOptional⟩ fun next => g depth (.accesses ⟨node, hasOptional⟩ next)
  if access.computed then
    let property ← Scan.require (← g depth (.sequence false)) .computedProperty
    Scan.skipBlanks
    Scan.expect (.char ']') .computedClose
    further property (← Scan.position)
  else
    Scan.skipBlanks
    if ← Scan.takes (.char '(') then
      g depth (.call ⟨before.node, hasOptional⟩ access.optional)
    else
      let property ← Leaf.propertyName
      further property property.span.stop

/-- A call, and the member accesses that follow it. -/
def call (g : Grammar σ) (depth : Nat) (before : Links) (optional : Bool) : ScanOf σ Links := do
  let arguments ← g depth .arguments
  let span : Span := ⟨before.node.span.start, ← Scan.position⟩
  let links : Links := ⟨.call span before.node arguments optional, before.hasOptional || optional⟩
  whenAccess links fun access => g depth (.member links access)

/-- Arguments up to the parenthesis that closes them. -/
def arguments (g : Grammar σ) (depth : Nat) : ScanOf σ (List Expr) := do
  let arguments ← g depth .argumentList
  Scan.expect (.char ')') .callClose
  return arguments

/-- Expressions separated by commas, of which only the last one may be blank. -/
def argumentList (g : Grammar σ) (depth : Nat) : ScanOf σ (List Expr) := do
  let e? ← g depth .expression
  Scan.skipBlanks
  let comma ← Scan.position
  if ← Scan.takes (.char ',') then
    match e? with
    | some e => return e :: (← g depth .argumentList)
    | none => Scan.failAt comma (.expected .elementBeforeComma)
  else
    return e?.toList

/-! ## Primary expressions -/

/-- What the first characters decide. The blanks before it have been taken. -/
def primaryForm (g : Grammar σ) (depth : Nat) : ScanOf σ (Option Expr) := do
  let start ← Scan.position
  if ← Scan.sees (.char '(') then
    g depth (.sequence true)
  else if let some operator ← Token.takeUpdate? then
    return some (← g depth (.updated operator start))
  else if let some word ← Scan.takeWord? then
    if word = "new".toList then
      return some (← g depth (.construct start))
    else
      return some (Leaf.ofWord ⟨start, start + Text.utf8Size word⟩ (String.ofList word))
  else if ← Scan.sees .numberStart then
    return some (← Leaf.number)
  else if ← Scan.takes (.char '[') then
    return some (← g depth (.array start))
  else
    return none

/-- A callee with its member accesses, and arguments if a parenthesis follows. What comes after the
arguments does not belong to it. -/
def construct (g : Grammar σ) (depth : Nat) (start : Nat) : ScanOf σ Expr := do
  Scan.skipBlanks
  let primary ← Scan.require (← g depth .primary) .callee
  let callee ← g depth (.calleeLinks ⟨primary, false⟩)
  let node := callee.links.node
  if callee.links.hasOptional || node.isChain then
    Scan.failAt start .chainInNew
  return .new ⟨start, callee.stop?.getD node.span.stop⟩ node callee.arguments

/-- The member accesses of a callee up to its arguments, if it has any. -/
def calleeLinks (g : Grammar σ) (depth : Nat) (before : Links) : ScanOf σ Callee := do
  let mark ← Scan.here
  Scan.skipBlanks
  match ← Token.takeAccess? with
  | some access => g depth (.calleeLinks (← g depth (.member before access)))
  | none =>
    if ← Scan.takes (.char '(') then
      let arguments ← g depth .arguments
      return ⟨before, arguments, some (← Scan.position)⟩
    else
      Scan.moveTo mark
      return ⟨before, [], none⟩

/-- The place that `++` or `--` applies to. -/
def updated (g : Grammar σ) (depth : Nat) (operator : UpdateOperator) (start : Nat) :
    ScanOf σ Expr := do
  let argument ← Scan.require (← g depth .token) .place
  if !argument.isPlace then
    Scan.failAt argument.span.start (.expected .place)
  return .update ⟨start, argument.span.stop⟩ operator true argument

/-- The elements of an array and the bracket that closes it. -/
def array (g : Grammar σ) (depth : Nat) (start : Nat) : ScanOf σ Expr := do
  let elements ← g depth .elements
  Scan.expect (.char ']') .arrayClose
  return .array ⟨start, ← Scan.position⟩ elements

/-- Elements separated by commas. A blank one is a hole, but none at the end. -/
def elements (g : Grammar σ) (depth : Nat) : ScanOf σ (List (Option Expr)) := do
  let e? ← g depth .expression
  Scan.skipBlanks
  if ← Scan.takes (.char ',') then
    return e? :: (← g depth .elements)
  else
    return e?.toList.map some

/-! ## One unfolding -/

/-- How each production is read, given how all of them are read, and how one is read a level further
down. -/
def stepWith (g : Grammar σ) (nested : (production : Production) → ScanOf σ production.Yield)
    (depth : Nat) : (production : Production) → ScanOf σ production.Yield
  | .sequence grouped => g.sequence depth grouped
  | .expressions isFirst => g.expressions depth isFirst
  | .expression => nested .conditional
  | .conditional => g.conditional depth
  | .operands least => nested (.climb least)
  | .climb least => g.climb depth least
  | .infixes least left isBareUnary => g.infixes depth least left isBareUnary
  | .unary => nested .unaryForm
  | .unaryForm => g.unaryForm depth
  | .token => g.token depth
  | .links before => g.links depth before
  | .primary => nested .primaryForm
  | .primaryForm => g.primaryForm depth
  | .member before access => g depth (.accesses before access)
  | .accesses before access => g.accesses depth before access
  | .call before optional => g.call depth before optional
  | .arguments => g.arguments depth
  | .argumentList => g.argumentList depth
  | .construct start => g.construct depth start
  | .calleeLinks before => g.calleeLinks depth before
  | .updated operator start => g.updated depth operator start
  | .array start => g.array depth start
  | .elements => g.elements depth

/-- One unfolding of the grammar. -/
def step (g : Grammar) (depth : Nat) (production : Production) : Scan production.Yield :=
  g.stepWith (g.nested depth) depth production

end Grammar

end Estree
