import Estree.Number.Binary64
import Estree.Operator

/-!
# Expressions

The tree of an expression, with the node kinds of ESTree. Every node has the span of source bytes it
was read from.
-/

namespace Estree

/-- The bytes from offset `start` up to, not including, offset `stop`. -/
structure Span where
  start : Nat
  stop : Nat
deriving DecidableEq

/-- Whether another span lies within this one. -/
def Span.contains (outer inner : Span) : Bool :=
  outer.start ≤ inner.start && inner.stop ≤ outer.stop

/-- The value of a literal. -/
inductive LiteralValue where
  | number (value : Binary64)
  | boolean (value : Bool)
  | null
deriving DecidableEq

/-- An expression. -/
inductive Expr where
  /-- `42`, `1e3`, `true`, `null`; `raw` is the spelling. -/
  | literal (span : Span) (raw : String) (value : LiteralValue)
  /-- `count`, `$el` -/
  | identifier (span : Span) (name : String)
  /-- `this` -/
  | this (span : Span)
  /-- `[a, , b]`; a missing element is a hole. -/
  | array (span : Span) (elements : List (Option Expr))
  /-- `a, b, c` -/
  | sequence (span : Span) (expressions : List Expr)
  /-- `test ? consequent : alternate` -/
  | conditional (span : Span) (test consequent alternate : Expr)
  /-- `new Point(x, y)` -/
  | new (span : Span) (callee : Expr) (arguments : List Expr)
  /-- `f(x)`, and `f?.(x)` if optional -/
  | call (span : Span) (callee : Expr) (arguments : List Expr) (optional : Bool)
  /-- `a.b`, and `a[b]` if computed; `a?.b` and `a?.[b]` if optional -/
  | member (span : Span) (object property : Expr) (computed optional : Bool)
  /-- A run of member accesses and calls of which one is optional, as a whole. -/
  | chain (span : Span) (expression : Expr)
  /-- `++x` if leading, else `x++` -/
  | update (span : Span) (operator : UpdateOperator) (leading : Bool) (argument : Expr)
  /-- `!x`, `typeof x` -/
  | unary (span : Span) (operator : UnaryOperator) (leading : Bool) (argument : Expr)
  /-- `a + b`, `a in b` -/
  | binary (span : Span) (operator : BinaryOperator) (left right : Expr)
  /-- `a && b`, `a ?? b` -/
  | logical (span : Span) (operator : LogicalOperator) (left right : Expr)

namespace Expr

instance : Inhabited Expr := ⟨.this ⟨0, 0⟩⟩

/-- The bytes that the node was read from. -/
def span : Expr → Span
  | literal span .. | identifier span _ | this span | array span _ | sequence span _
  | conditional span .. | new span .. | call span .. | member span .. | chain span _
  | update span .. | unary span .. | binary span .. | logical span .. => span

/-- The name of the node's kind in ESTree. -/
def type : Expr → String
  | literal .. => "Literal"
  | identifier .. => "Identifier"
  | this .. => "ThisExpression"
  | array .. => "ArrayExpression"
  | sequence .. => "SequenceExpression"
  | conditional .. => "ConditionalExpression"
  | new .. => "NewExpression"
  | call .. => "CallExpression"
  | member .. => "MemberExpression"
  | chain .. => "ChainExpression"
  | update .. => "UpdateExpression"
  | unary .. => "UnaryExpression"
  | binary .. => "BinaryExpression"
  | logical .. => "LogicalExpression"

/-- Whether `++` and `--` may be applied: identifiers and member accesses name a place. -/
def isPlace : Expr → Bool
  | identifier .. | member .. => true
  | _ => false

def isIdentifier : Expr → Bool
  | identifier .. => true
  | _ => false

def isChain : Expr → Bool
  | chain .. => true
  | _ => false

/-- The nodes right below a node, in the order of the source. Holes are skipped. -/
def children : Expr → List Expr
  | literal .. | identifier .. | this _ => []
  | array _ elements => elements.filterMap id
  | sequence _ expressions => expressions
  | conditional _ test consequent alternate => [test, consequent, alternate]
  | new _ callee arguments | call _ callee arguments _ => callee :: arguments
  | member _ object property _ _ => [object, property]
  | chain _ expression => [expression]
  | update _ _ _ argument | unary _ _ _ argument => [argument]
  | binary _ _ left right | logical _ _ left right => [left, right]

mutual

/-- All nodes of a tree, each before those below it. -/
def nodes : Expr → List Expr
  | e@(literal ..) | e@(identifier ..) | e@(this _) => [e]
  | e@(array _ elements) => e :: nodesOfSlots elements
  | e@(sequence _ expressions) => e :: nodesOfList expressions
  | e@(conditional _ test consequent alternate) =>
    e :: (test.nodes ++ consequent.nodes ++ alternate.nodes)
  | e@(new _ callee arguments) | e@(call _ callee arguments _) =>
    e :: (callee.nodes ++ nodesOfList arguments)
  | e@(member _ object property _ _) => e :: (object.nodes ++ property.nodes)
  | e@(chain _ expression) => e :: expression.nodes
  | e@(update _ _ _ argument) | e@(unary _ _ _ argument) => e :: argument.nodes
  | e@(binary _ _ left right) | e@(logical _ _ left right) => e :: (left.nodes ++ right.nodes)

/-- All nodes of the trees of a list. -/
def nodesOfList : List Expr → List Expr
  | [] => []
  | e :: rest => e.nodes ++ nodesOfList rest

/-- All nodes of the elements of an array. -/
def nodesOfSlots : List (Option Expr) → List Expr
  | [] => []
  | none :: rest => nodesOfSlots rest
  | some e :: rest => e.nodes ++ nodesOfSlots rest

end

/-- Whether the span of every node right below lies within the node's own. -/
def enclosesChildren (e : Expr) : Bool :=
  e.children.all fun child => e.span.contains child.span

end Expr

/-- Two operands joined by an infix operator; the span reaches from the one to the other. -/
def InfixOperator.join (operator : InfixOperator) (left right : Expr) : Expr :=
  let span : Span := ⟨left.span.start, right.span.stop⟩
  match operator with
  | binary operator => .binary span operator left right
  | logical operator => .logical span operator left right

end Estree
