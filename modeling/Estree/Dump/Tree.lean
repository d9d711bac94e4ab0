import Estree.Dump
import Estree.Expr

/-!
# Dumps of trees

An expression as a record of its kind and its span. Operators are shown by name.
-/

namespace Estree

def UpdateOperator.dump : UpdateOperator → Dump
  | increment => .atom "Increment"
  | decrement => .atom "Decrement"

def UnaryOperator.dump : UnaryOperator → Dump
  | minus => .atom "Minus"
  | plus => .atom "Plus"
  | not => .atom "Not"
  | bitNot => .atom "BitNot"
  | typeof => .atom "Typeof"
  | void => .atom "Void"
  | delete => .atom "Delete"

def BinaryOperator.dump : BinaryOperator → Dump
  | equal => .atom "Equal"
  | notEqual => .atom "NotEqual"
  | strictEqual => .atom "StrictEqual"
  | strictNotEqual => .atom "StrictNotEqual"
  | less => .atom "Less"
  | lessEqual => .atom "LessEqual"
  | greater => .atom "Greater"
  | greaterEqual => .atom "GreaterEqual"
  | leftShift => .atom "LeftShift"
  | rightShift => .atom "RightShift"
  | unsignedRightShift => .atom "UnsignedRightShift"
  | add => .atom "Add"
  | sub => .atom "Sub"
  | mul => .atom "Mul"
  | div => .atom "Div"
  | mod => .atom "Mod"
  | exp => .atom "Exp"
  | bitOr => .atom "BitOr"
  | bitXor => .atom "BitXor"
  | bitAnd => .atom "BitAnd"
  | memberOf => .atom "In"
  | instanceOf => .atom "Instanceof"

def LogicalOperator.dump : LogicalOperator → Dump
  | and => .atom "And"
  | or => .atom "Or"
  | nullish => .atom "NullishCoalescing"

def LiteralValue.dump : LiteralValue → Dump
  | number value => .wrapped "Number" (.atom (Dump.layout.render value))
  | boolean value => .wrapped "Boolean" (.boolean value)
  | null => .atom "Null"

/-- A node of a kind with its span. -/
def Dump.node (kind : Dump) (span : Span) : Dump :=
  .record "Expression"
    [("kind", kind),
     ("span", .record "Span" [("start", .atom span.start.repr), ("end", .atom span.stop.repr)])]

namespace Expr

mutual

/-- The tree as nested records. -/
def dump : Expr → Dump
  | literal span raw value =>
    .node (.record "Literal" [("raw", .quoted raw), ("value", value.dump)]) span
  | identifier span name => .node (.record "Identifier" [("name", .quoted name)]) span
  | this span => .node (.atom "This") span
  | array span elements =>
    .node (.record "Array" [("elements", .list (dumpSlots elements))]) span
  | sequence span expressions =>
    .node (.record "Sequence" [("expressions", .list (dumpList expressions))]) span
  | conditional span test consequent alternate =>
    .node (.record "Conditional"
      [("test", test.dump), ("consequent", consequent.dump), ("alternate", alternate.dump)]) span
  | new span callee arguments =>
    .node (.record "New" [("callee", callee.dump), ("arguments", .list (dumpList arguments))]) span
  | call span callee arguments optional =>
    .node (.record "Call"
      [("callee", callee.dump), ("arguments", .list (dumpList arguments)),
       ("optional", .boolean optional)]) span
  | member span object property computed optional =>
    .node (.record "Member"
      [("object", object.dump), ("property", property.dump), ("computed", .boolean computed),
       ("optional", .boolean optional)]) span
  | chain span expression => .node (.record "Chain" [("expression", expression.dump)]) span
  | update span operator leading argument =>
    .node (.record "Update"
      [("operator", operator.dump), ("prefix", .boolean leading), ("argument", argument.dump)]) span
  | unary span operator leading argument =>
    .node (.record "Unary"
      [("operator", operator.dump), ("prefix", .boolean leading), ("argument", argument.dump)]) span
  | binary span operator left right =>
    .node (.record "Binary"
      [("operator", operator.dump), ("left", left.dump), ("right", right.dump)]) span
  | logical span operator left right =>
    .node (.record "Logical"
      [("operator", operator.dump), ("left", left.dump), ("right", right.dump)]) span

/-- The trees of a list. -/
def dumpList : List Expr → List Dump
  | [] => []
  | e :: rest => e.dump :: dumpList rest

/-- The elements of an array; a hole is shown as absent. -/
def dumpSlots : List (Option Expr) → List Dump
  | [] => []
  | none :: rest => .atom "None" :: dumpSlots rest
  | some e :: rest => .wrapped "Some" e.dump :: dumpSlots rest

end

end Expr

end Estree
