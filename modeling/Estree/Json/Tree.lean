import Estree.Expr
import Estree.Json

/-!
# Trees as JSON

An expression as a JSON object in the form of ESTree: its type, its parts, and its span.
-/

namespace Estree

/-- The value of a literal. -/
def LiteralValue.toJson : LiteralValue → Json
  | number value => .real value
  | boolean value => .boolean value
  | null => .null

/-- An object with a type, members and a span. -/
def Json.node (type : String) (members : List (String × Json)) (span : Span) : Json :=
  .object (("type", .string type) ::
    (members ++ [("start", .natural span.start), ("end", .natural span.stop)]))

namespace Expr

mutual

/-- The tree as a JSON object. -/
def toJson : Expr → Json
  | literal span raw value =>
    .node "Literal" [("raw", .string raw), ("value", value.toJson)] span
  | identifier span name => .node "Identifier" [("name", .string name)] span
  | this span => .node "ThisExpression" [] span
  | array span elements =>
    .node "ArrayExpression" [("elements", .array (toJsonSlots elements))] span
  | sequence span expressions =>
    .node "SequenceExpression" [("expressions", .array (toJsonList expressions))] span
  | conditional span test consequent alternate =>
    .node "ConditionalExpression"
      [("test", test.toJson), ("consequent", consequent.toJson), ("alternate", alternate.toJson)]
      span
  | new span callee arguments =>
    .node "NewExpression"
      [("callee", callee.toJson), ("arguments", .array (toJsonList arguments))] span
  | call span callee arguments optional =>
    .node "CallExpression"
      [("callee", callee.toJson), ("arguments", .array (toJsonList arguments)),
       ("optional", .boolean optional)] span
  | member span object property computed optional =>
    .node "MemberExpression"
      [("object", object.toJson), ("property", property.toJson), ("computed", .boolean computed),
       ("optional", .boolean optional)] span
  | chain span expression => .node "ChainExpression" [("expression", expression.toJson)] span
  | update span operator leading argument =>
    .node "UpdateExpression"
      [("operator", .string operator.text), ("prefix", .boolean leading),
       ("argument", argument.toJson)] span
  | unary span operator leading argument =>
    .node "UnaryExpression"
      [("operator", .string operator.text), ("prefix", .boolean leading),
       ("argument", argument.toJson)] span
  | binary span operator left right =>
    .node "BinaryExpression"
      [("operator", .string operator.text), ("left", left.toJson), ("right", right.toJson)] span
  | logical span operator left right =>
    .node "LogicalExpression"
      [("operator", .string operator.text), ("left", left.toJson), ("right", right.toJson)] span

/-- The trees of a list as JSON objects. -/
def toJsonList : List Expr → List Json
  | [] => []
  | e :: rest => e.toJson :: toJsonList rest

/-- The elements of an array as JSON; a hole is `null`. -/
def toJsonSlots : List (Option Expr) → List Json
  | [] => []
  | none :: rest => .null :: toJsonSlots rest
  | some e :: rest => e.toJson :: toJsonSlots rest

end

end Expr

end Estree
