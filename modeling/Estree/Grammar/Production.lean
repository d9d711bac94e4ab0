import Estree.Grammar.Leaf

/-!
# Productions

The productions of the grammar, and what each of them yields:

    sequence    := expression ("," expression)*
    expression  := operands ("?" expression ":" expression)?
    operands    := unary (infix-operator operands)*
    unary       := unary-operator unary | token
    token       := primary (member | call)* update-operator?
    primary     := "(" sequence ")" | update-operator token | "new" callee arguments?
                 | word | number | "[" elements "]"

A production that may be absent yields nothing where nothing at the cursor begins it. A loop is a
production of its own, of which each round is one more call.
-/

namespace Estree

/-- A run of member accesses and calls that may still grow. It becomes a chain as a whole, once it
is complete, if one of its links is optional. -/
structure Links where
  node : Expr
  hasOptional : Bool

/-- The node of a complete run. -/
def Links.finish (links : Links) : Expr :=
  if links.hasOptional then .chain links.node.span links.node else links.node

/-- Operands joined so far, and the logical operator at the root if no parentheses enclose it. -/
structure Climbed where
  expr : Expr
  bareLogical : Option LogicalOperator

/-- Whether this logical operator may not stand above what has been joined so far. -/
def Climbed.clashes (climbed : Climbed) (operator : LogicalOperator) : Bool :=
  climbed.bareLogical.any operator.clashes

/-- What follows `new`: a callee, and where its arguments end if it has some. -/
structure Callee where
  links : Links
  arguments : List Expr
  stop? : Option Nat

/-- A production of the grammar. -/
inductive Production where
  /-- Expressions separated by commas, in parentheses if grouped. -/
  | sequence (grouped : Bool)
  /-- The expressions of a sequence. -/
  | expressions (isFirst : Bool)
  /-- An expression without commas, one level further down. -/
  | expression
  | conditional
  /-- Operands joined by operators that bind at least so tightly, one level further down. -/
  | operands (least : Nat)
  | climb (least : Nat)
  /-- The operators and operands after a left operand. -/
  | infixes (least : Nat) (left : Climbed) (isBareUnary : Bool)
  /-- An operand with its unary operators, one level further down. -/
  | unary
  | unaryForm
  /-- A primary expression with its member accesses, calls and update operator. -/
  | token
  /-- The member accesses and calls of a token. -/
  | links (before : Links)
  /-- A primary expression, one level further down. -/
  | primary
  | primaryForm
  /-- Member accesses, of which the first has been begun. -/
  | member (before : Links) (access : Access)
  /-- The next one of these accesses, begun as well. -/
  | accesses (before : Links) (access : Access)
  /-- A call whose parenthesis has been opened. -/
  | call (before : Links) (optional : Bool)
  /-- Arguments, with the parenthesis that closes them. -/
  | arguments
  /-- Arguments without that parenthesis. -/
  | argumentList
  /-- What follows `new`, which begins at an offset. -/
  | construct (start : Nat)
  /-- The member accesses of a callee and its arguments. -/
  | calleeLinks (before : Links)
  /-- What follows `++` or `--`, which begins at an offset. -/
  | updated (operator : UpdateOperator) (start : Nat)
  /-- An array whose bracket has been opened at an offset. -/
  | array (start : Nat)
  /-- The elements of an array; a blank one at the end does not count. -/
  | elements

/-- What a production yields. -/
abbrev Production.Yield : Production → Type
  | sequence _ | expression | conditional | unary | unaryForm | token | primary | primaryForm =>
    Option Expr
  | expressions _ | arguments | argumentList => List Expr
  | elements => List (Option Expr)
  | operands _ | climb _ => Option Climbed
  | infixes .. => Climbed
  | links _ | member .. | accesses .. | call .. => Links
  | construct _ | updated .. | array _ => Expr
  | calleeLinks _ => Callee

end Estree
