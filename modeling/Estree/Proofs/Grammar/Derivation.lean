import Estree.Grammar.Reader
import Estree.Proofs.Grammar.Scan

/-!
# Derivations

What the grammar reads, apart from how often it is unfolded: `Derives depth p c v c'` says that the
production `p`, with `depth` levels left to open, reads from the cursor `c` to the cursor `c'` and
yields `v`. Each constructor is one way for a production to succeed, so what holds of everything
that is read is an induction on derivations, and a text is shown to be read by building one.

A derivation has no fuel and no faults. Its levels are those of the unfolded grammar: a constructor
for a production that opens a level has one more than its part. Both directions are shown elsewhere:
whatever is read can be derived (`unfold_isSound`), and whatever can be derived is read with fuel
and levels enough (`Derives.unfold_eq_ok`).

The hypotheses of a constructor are about the text at the cursor, in the order in which the
production looks at it, so no two constructors for the same production fit at one place.
-/

namespace Estree

/-- The logical operator that a joined node has at its root. -/
def InfixOperator.logical? : InfixOperator → Option LogicalOperator
  | binary _ => none
  | logical operator => some operator

/-- Whether neither operand has a root that may not stand beside this operator. -/
def InfixOperator.Allows (operator : InfixOperator) (left right : Climbed) : Prop :=
  ∀ logical ∈ operator.logical?, left.clashes logical = false ∧ right.clashes logical = false

namespace Grammar

/-- The node of the expressions of a sequence; one alone is no sequence. Without parentheses the
span reaches from the first one to the last. -/
def sequenceNode? (grouped? : Option Span) : List Expr → Option Expr
  | [] => none
  | [e] => some e
  | first :: rest =>
    let inner : Span := ⟨first.span.start, (rest.getLastD first).span.stop⟩
    some (.sequence (grouped?.getD inner) (first :: rest))

/-- Some expressions make a node. -/
theorem sequenceNode?_ne_none {grouped? : Option Span} {es : List Expr} (h : es ≠ []) :
    sequenceNode? grouped? es ≠ none := by
  rcases es with _ | ⟨first, _ | ⟨second, rest⟩⟩
  · exact absurd rfl h
  · exact nofun
  · exact nofun

/-- A run with one more member access. -/
def memberLinks (before : Links) (property : Expr) (access : Access) (stop : Nat) : Links :=
  ⟨.member ⟨before.node.span.start, stop⟩ before.node property access.computed access.optional,
    before.hasOptional || access.optional⟩

/-- A run with one more call. -/
def callLinks (before : Links) (arguments : List Expr) (optional : Bool) (stop : Nat) : Links :=
  ⟨.call ⟨before.node.span.start, stop⟩ before.node arguments optional,
    before.hasOptional || optional⟩

/-- A production reads from a cursor to a cursor and yields a value, with so many levels left. -/
inductive Derives : (depth : Nat) → (p : Production) → Cursor → p.Yield → Cursor → Prop
  -- Sequences and conditionals
  | ungrouped {depth : Nat} {c c' : Cursor} {es : List Expr} :
    Derives depth (.expressions true) c.pastBlanks es c' →
    Derives depth (.sequence false) c (sequenceNode? none es) c'
  | grouped {depth : Nat} {c c' : Cursor} {es : List Expr} :
    c.pastBlanks.rest.head? = some '(' →
    Derives depth (.expressions true) (c.pastBlanks.skip 1) es c' →
    c'.rest.head? = some ')' → es ≠ [] →
    Derives depth (.sequence true) c
      (sequenceNode? (some ⟨c.pastBlanks.position, (c'.skip 1).position⟩) es) (c'.skip 1)
  | lastExpression {depth : Nat} {c c' : Cursor} {e? : Option Expr} {isFirst : Bool} :
    Derives depth .expression c e? c' →
    (e? = none → isFirst = true) → c'.pastBlanks.rest.head? ≠ some ',' →
    Derives depth (.expressions isFirst) c e?.toList c'.pastBlanks
  | moreExpressions {depth : Nat} {c c₁ c' : Cursor} {e : Expr} {es : List Expr} {isFirst : Bool} :
    Derives depth .expression c (some e) c₁ → c₁.pastBlanks.rest.head? = some ',' →
    Derives depth (.expressions false) (c₁.pastBlanks.skip 1) es c' →
    Derives depth (.expressions isFirst) c (e :: es) c'
  | expression {depth : Nat} {c c' : Cursor} {e? : Option Expr} :
    Derives depth .conditional c e? c' → Derives (depth + 1) .expression c e? c'
  | unconditional {depth : Nat} {c c' : Cursor} {operands? : Option Climbed} :
    Derives depth (.operands 1) c operands? c' → c'.pastBlanks.rest.head? ≠ some '?' →
    Derives depth .conditional c (operands?.map (·.expr)) c'.pastBlanks
  | conditional {depth : Nat} {c c₁ c₂ c' : Cursor} {test : Climbed} {consequent alternate : Expr} :
    Derives depth (.operands 1) c (some test) c₁ → c₁.pastBlanks.rest.head? = some '?' →
    Derives depth .expression (c₁.pastBlanks.skip 1) (some consequent) c₂ →
    c₂.pastBlanks.rest.head? = some ':' →
    Derives depth .expression (c₂.pastBlanks.skip 1) (some alternate) c' →
    Derives depth .conditional c
      (some
        (.conditional ⟨test.expr.span.start, alternate.span.stop⟩ test.expr consequent alternate))
      c'
  -- Operators
  | operands {depth : Nat} {c c' : Cursor} {least : Nat} {climbed? : Option Climbed} :
    Derives depth (.climb least) c climbed? c' →
    Derives (depth + 1) (.operands least) c climbed? c'
  | noOperand {depth : Nat} {c c' : Cursor} {least : Nat} :
    Derives depth .unary c.pastBlanks none c' → Derives depth (.climb least) c none c'
  | climb {depth : Nat} {c c₁ c' : Cursor} {least : Nat} {left : Expr} {climbed : Climbed} :
    Derives depth .unary c.pastBlanks (some left) c₁ →
    Derives depth (.infixes least ⟨left, none⟩ (Token.unaryOperator? c.pastBlanks.rest).isSome) c₁
      climbed c' →
    Derives depth (.climb least) c (some climbed) c'
  | noInfix {depth : Nat} {c : Cursor} {least : Nat} {left : Climbed} {isBareUnary : Bool} :
    (∀ operator ∈ Token.infixOperator? c.pastBlanks.rest, operator.precedence < least) →
    Derives depth (.infixes least left isBareUnary) c left c.pastBlanks
  | joined {depth : Nat} {c c₁ c' : Cursor} {least : Nat} {left right climbed : Climbed}
      {isBareUnary : Bool}
      {operator : InfixOperator} :
    Token.infixOperator? c.pastBlanks.rest = some operator → least ≤ operator.precedence →
    ¬(isBareUnary = true ∧ operator = .binary .exp) →
    Derives depth (.operands operator.rightPrecedence) (c.pastBlanks.skip operator.text.length)
      (some right) c₁ →
    operator.Allows left right →
    Derives depth (.infixes least ⟨operator.join left.expr right.expr, operator.logical?⟩ false) c₁
      climbed c' →
    Derives depth (.infixes least left isBareUnary) c climbed c'
  | unary {depth : Nat} {c c' : Cursor} {e? : Option Expr} :
    Derives depth .unaryForm c e? c' → Derives (depth + 1) .unary c e? c'
  | unaryOperator {depth : Nat} {c c' : Cursor} {operator : UnaryOperator} {argument : Expr} :
    Token.unaryOperator? c.pastBlanks.rest = some operator →
    Derives depth .unary (c.pastBlanks.skip operator.text.length) (some argument) c' →
    Derives depth .unaryForm c
      (some (.unary ⟨c.pastBlanks.position, argument.span.stop⟩ operator true argument)) c'
  | noUnaryOperator {depth : Nat} {c c' : Cursor} {e? : Option Expr} :
    Token.unaryOperator? c.pastBlanks.rest = none →
    Derives depth .token c.pastBlanks e? c' → Derives depth .unaryForm c e? c'
  -- Tokens, member accesses and calls
  | noToken {depth : Nat} {c c' : Cursor} :
    Derives depth .primary c.pastBlanks none c' → Derives depth .token c none c'
  | token {depth : Nat} {c c₁ c' : Cursor} {primary : Expr} {run : Links} :
    Derives depth .primary c.pastBlanks (some primary) c₁ →
    Derives depth (.links ⟨primary, false⟩) c₁ run c' →
    Token.updateOperator? (c'.skipBlanks false).rest = none →
    Derives depth .token c (some run.finish) (c'.skipBlanks false)
  | trailingUpdate {depth : Nat} {c c₁ c' : Cursor} {primary : Expr} {run : Links}
      {operator : UpdateOperator} :
    Derives depth .primary c.pastBlanks (some primary) c₁ →
    Derives depth (.links ⟨primary, false⟩) c₁ run c' →
    Token.updateOperator? (c'.skipBlanks false).rest = some operator →
    run.finish.isPlace = true →
    Derives depth .token c
      (some (.update
        ⟨run.finish.span.start, ((c'.skipBlanks false).skip operator.text.length).position⟩
        operator false run.finish))
      ((c'.skipBlanks false).skip operator.text.length)
  | noLink {depth : Nat} {c : Cursor} {before : Links} :
    Token.access? c.pastBlanks.rest = none → c.pastBlanks.rest.head? ≠ some '(' →
    Derives depth (.links before) c before c
  | linkAccess {depth : Nat} {c c₁ c' : Cursor} {before between after : Links} {access : Access} :
    Token.access? c.pastBlanks.rest = some access →
    Derives depth (.member before access) (c.pastBlanks.skip access.text.length) between c₁ →
    Derives depth (.links between) c₁ after c' →
    Derives depth (.links before) c after c'
  | linkCall {depth : Nat} {c c₁ c' : Cursor} {before between after : Links} :
    Token.access? c.pastBlanks.rest = none → c.pastBlanks.rest.head? = some '(' →
    Derives depth (.call before false) (c.pastBlanks.skip 1) between c₁ →
    Derives depth (.links between) c₁ after c' →
    Derives depth (.links before) c after c'
  | member {depth : Nat} {c c' : Cursor} {before after : Links} {access : Access} :
    Derives depth (.accesses before access) c after c' →
    Derives depth (.member before access) c after c'
  | computedLast {depth : Nat} {c c' : Cursor} {before : Links} {access : Access}
      {property : Expr} :
    access.computed = true → Derives depth (.sequence false) c (some property) c' →
    c'.pastBlanks.rest.head? = some ']' →
    Token.access? (c'.pastBlanks.skip 1).pastBlanks.rest = none →
    Derives depth (.accesses before access) c
      (memberLinks before property access (c'.pastBlanks.skip 1).position) (c'.pastBlanks.skip 1)
  | computedNext {depth : Nat} {c c₁ c' : Cursor} {before after : Links} {access next : Access}
      {property : Expr} :
    access.computed = true → Derives depth (.sequence false) c (some property) c₁ →
    c₁.pastBlanks.rest.head? = some ']' →
    Token.access? (c₁.pastBlanks.skip 1).pastBlanks.rest = some next →
    Derives depth
      (.accesses (memberLinks before property access (c₁.pastBlanks.skip 1).position) next)
      ((c₁.pastBlanks.skip 1).pastBlanks.skip next.text.length) after c' →
    Derives depth (.accesses before access) c after c'
  | namedLast {depth : Nat} {c c' : Cursor} {before : Links} {access : Access} {property : Expr} :
    access.computed = false → c.pastBlanks.rest.head? ≠ some '(' →
    Leaf.propertyName c.pastBlanks = .ok property c' →
    Token.access? c'.pastBlanks.rest = none →
    Derives depth (.accesses before access) c
      (memberLinks before property access property.span.stop) c'
  | namedNext {depth : Nat} {c c₁ c' : Cursor} {before after : Links} {access next : Access}
      {property : Expr} :
    access.computed = false → c.pastBlanks.rest.head? ≠ some '(' →
    Leaf.propertyName c.pastBlanks = .ok property c₁ →
    Token.access? c₁.pastBlanks.rest = some next →
    Derives depth (.accesses (memberLinks before property access property.span.stop) next)
      (c₁.pastBlanks.skip next.text.length) after c' →
    Derives depth (.accesses before access) c after c'
  | accessedCall {depth : Nat} {c c' : Cursor} {before after : Links} {access : Access} :
    access.computed = false → c.pastBlanks.rest.head? = some '(' →
    Derives depth (.call ⟨before.node, before.hasOptional || access.optional⟩ access.optional)
      (c.pastBlanks.skip 1) after c' →
    Derives depth (.accesses before access) c after c'
  | callLast {depth : Nat} {c c' : Cursor} {before : Links} {optional : Bool}
      {arguments : List Expr} :
    Derives depth .arguments c arguments c' → Token.access? c'.pastBlanks.rest = none →
    Derives depth (.call before optional) c (callLinks before arguments optional c'.position) c'
  | callNext {depth : Nat} {c c₁ c' : Cursor} {before after : Links} {optional : Bool}
      {next : Access}
      {arguments : List Expr} :
    Derives depth .arguments c arguments c₁ → Token.access? c₁.pastBlanks.rest = some next →
    Derives depth (.member (callLinks before arguments optional c₁.position) next)
      (c₁.pastBlanks.skip next.text.length) after c' →
    Derives depth (.call before optional) c after c'
  | arguments {depth : Nat} {c c' : Cursor} {arguments : List Expr} :
    Derives depth .argumentList c arguments c' → c'.rest.head? = some ')' →
    Derives depth .arguments c arguments (c'.skip 1)
  | lastArgument {depth : Nat} {c c' : Cursor} {e? : Option Expr} :
    Derives depth .expression c e? c' → c'.pastBlanks.rest.head? ≠ some ',' →
    Derives depth .argumentList c e?.toList c'.pastBlanks
  | moreArguments {depth : Nat} {c c₁ c' : Cursor} {e : Expr} {arguments : List Expr} :
    Derives depth .expression c (some e) c₁ → c₁.pastBlanks.rest.head? = some ',' →
    Derives depth .argumentList (c₁.pastBlanks.skip 1) arguments c' →
    Derives depth .argumentList c (e :: arguments) c'
  -- Primary expressions
  | primary {depth : Nat} {c c' : Cursor} {e? : Option Expr} :
    Derives depth .primaryForm c e? c' → Derives (depth + 1) .primary c e? c'
  | group {depth : Nat} {c c' : Cursor} {e? : Option Expr} :
    c.rest.head? = some '(' → Derives depth (.sequence true) c e? c' →
    Derives depth .primaryForm c e? c'
  | leadingUpdate {depth : Nat} {c c' : Cursor} {operator : UpdateOperator} {e : Expr} :
    Token.updateOperator? c.rest = some operator →
    Derives depth (.updated operator c.position) (c.skip operator.text.length) e c' →
    Derives depth .primaryForm c (some e) c'
  | new {depth : Nat} {c c' : Cursor} {e : Expr} :
    Text.leadingWord c.rest = "new".toList →
    Derives depth (.construct c.position) (c.skip "new".toList.length) e c' →
    Derives depth .primaryForm c (some e) c'
  | word {depth : Nat} {c : Cursor} {word : List Char} :
    Text.leadingWord c.rest = word → word ≠ [] → word ≠ "new".toList →
    Derives depth .primaryForm c
      (some (Leaf.ofWord ⟨c.position, c.position + Text.utf8Size word⟩ (String.ofList word)))
      (c.skip word.length)
  | number {depth : Nat} {c c' : Cursor} {e : Expr} :
    Pattern.numberStart.isAtStart c.rest = true → Leaf.number c = .ok e c' →
    Derives depth .primaryForm c (some e) c'
  | arrayLiteral {depth : Nat} {c c' : Cursor} {e : Expr} :
    c.rest.head? = some '[' → Derives depth (.array c.position) (c.skip 1) e c' →
    Derives depth .primaryForm c (some e) c'
  | noPrimary {depth : Nat} {c : Cursor} :
    c.rest.head? ≠ some '(' → Token.updateOperator? c.rest = none →
    Text.leadingWord c.rest = [] → Pattern.numberStart.isAtStart c.rest = false →
    c.rest.head? ≠ some '[' →
    Derives depth .primaryForm c none c
  | construct {depth : Nat} {c c₁ c' : Cursor} {start : Nat} {primary : Expr} {callee : Callee} :
    Derives depth .primary c.pastBlanks (some primary) c₁ →
    Derives depth (.calleeLinks ⟨primary, false⟩) c₁ callee c' →
    callee.links.hasOptional = false → callee.links.node.isChain = false →
    Derives depth (.construct start) c
      (.new ⟨start, callee.stop?.getD callee.links.node.span.stop⟩ callee.links.node
        callee.arguments) c'
  | noCalleeLink {depth : Nat} {c : Cursor} {before : Links} :
    Token.access? c.pastBlanks.rest = none → c.pastBlanks.rest.head? ≠ some '(' →
    Derives depth (.calleeLinks before) c ⟨before, [], none⟩ c
  | calleeAccess {depth : Nat} {c c₁ c' : Cursor} {before between : Links} {access : Access}
      {callee : Callee} :
    Token.access? c.pastBlanks.rest = some access →
    Derives depth (.member before access) (c.pastBlanks.skip access.text.length) between c₁ →
    Derives depth (.calleeLinks between) c₁ callee c' →
    Derives depth (.calleeLinks before) c callee c'
  | calleeArguments {depth : Nat} {c c' : Cursor} {before : Links} {arguments : List Expr} :
    Token.access? c.pastBlanks.rest = none → c.pastBlanks.rest.head? = some '(' →
    Derives depth .arguments (c.pastBlanks.skip 1) arguments c' →
    Derives depth (.calleeLinks before) c ⟨before, arguments, some c'.position⟩ c'
  | updated {depth : Nat} {c c' : Cursor} {operator : UpdateOperator} {start : Nat}
      {argument : Expr} :
    Derives depth .token c (some argument) c' → argument.isPlace = true →
    Derives depth (.updated operator start) c
      (.update ⟨start, argument.span.stop⟩ operator true argument) c'
  | array {depth : Nat} {c c' : Cursor} {start : Nat} {elements : List (Option Expr)} :
    Derives depth .elements c elements c' → c'.rest.head? = some ']' →
    Derives depth (.array start) c (.array ⟨start, (c'.skip 1).position⟩ elements) (c'.skip 1)
  | lastElement {depth : Nat} {c c' : Cursor} {e? : Option Expr} :
    Derives depth .expression c e? c' → c'.pastBlanks.rest.head? ≠ some ',' →
    Derives depth .elements c (e?.toList.map some) c'.pastBlanks
  | moreElements {depth : Nat} {c c₁ c' : Cursor} {e? : Option Expr}
      {elements : List (Option Expr)} :
    Derives depth .expression c e? c₁ → c₁.pastBlanks.rest.head? = some ',' →
    Derives depth .elements (c₁.pastBlanks.skip 1) elements c' →
    Derives depth .elements c (e? :: elements) c'

/-- After a comma in a sequence an expression has to follow. -/
theorem Derives.expressions_ne_nil {depth : Nat} {c c' : Cursor} {es : List Expr}
    (h : Derives depth (.expressions false) c es c') : es ≠ [] := by
  cases h with
  | @lastExpression _ _ _ e? _ _ hnone _ =>
    cases e? with
    | none => cases hnone rfl
    | some e => exact List.cons_ne_nil e []
  | moreExpressions => exact List.cons_ne_nil _ _

end Grammar

end Estree
