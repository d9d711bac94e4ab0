/-!
# Operators

The operators of expressions, each with its spelling. An infix operator is a binary or a logical
one; its precedence says how tightly it binds its operands, and all of them group to the left but
`**`.
-/

namespace Estree

/-- `++` and `--`. -/
inductive UpdateOperator where
  | increment
  | decrement
deriving DecidableEq

namespace UpdateOperator

def all : List UpdateOperator := [increment, decrement]

def text : UpdateOperator → String
  | increment => "++"
  | decrement => "--"

/-- The operator with this spelling. -/
def ofText? (spelling : String) : Option UpdateOperator :=
  all.find? (·.text == spelling)

theorem ofText?_text (operator : UpdateOperator) : ofText? operator.text = some operator := by
  cases operator <;> decide +kernel

end UpdateOperator

/-- Operators that stand before one operand. -/
inductive UnaryOperator where
  | minus
  | plus
  | not
  | bitNot
  | typeof
  | void
  | delete
deriving DecidableEq

namespace UnaryOperator

def all : List UnaryOperator := [minus, plus, not, bitNot, typeof, void, delete]

def text : UnaryOperator → String
  | minus => "-"
  | plus => "+"
  | not => "!"
  | bitNot => "~"
  | typeof => "typeof"
  | void => "void"
  | delete => "delete"

/-- The operator with this spelling. -/
def ofText? (spelling : String) : Option UnaryOperator :=
  all.find? (·.text == spelling)

/-- Whether the operator is spelled as a word. -/
def isWord : UnaryOperator → Bool
  | typeof | void | delete => true
  | _ => false

theorem ofText?_text (operator : UnaryOperator) : ofText? operator.text = some operator := by
  cases operator <;> decide +kernel

end UnaryOperator

/-- Operators that compute a value from two. -/
inductive BinaryOperator where
  | equal
  | notEqual
  | strictEqual
  | strictNotEqual
  | less
  | lessEqual
  | greater
  | greaterEqual
  | leftShift
  | rightShift
  | unsignedRightShift
  | add
  | sub
  | mul
  | div
  | mod
  | exp
  | bitOr
  | bitXor
  | bitAnd
  | memberOf
  | instanceOf
deriving DecidableEq

namespace BinaryOperator

def all : List BinaryOperator :=
  [equal, notEqual, strictEqual, strictNotEqual, less, lessEqual, greater, greaterEqual, leftShift,
   rightShift, unsignedRightShift, add, sub, mul, div, mod, exp, bitOr, bitXor, bitAnd, memberOf,
   instanceOf]

def text : BinaryOperator → String
  | equal => "=="
  | notEqual => "!="
  | strictEqual => "==="
  | strictNotEqual => "!=="
  | less => "<"
  | lessEqual => "<="
  | greater => ">"
  | greaterEqual => ">="
  | leftShift => "<<"
  | rightShift => ">>"
  | unsignedRightShift => ">>>"
  | add => "+"
  | sub => "-"
  | mul => "*"
  | div => "/"
  | mod => "%"
  | exp => "**"
  | bitOr => "|"
  | bitXor => "^"
  | bitAnd => "&"
  | memberOf => "in"
  | instanceOf => "instanceof"

/-- The operator with this spelling. -/
def ofText? (spelling : String) : Option BinaryOperator :=
  all.find? (·.text == spelling)

/-- Whether the operator compares its operands. -/
def isComparison : BinaryOperator → Bool
  | equal | notEqual | strictEqual | strictNotEqual => true
  | less | lessEqual | greater | greaterEqual | memberOf | instanceOf => true
  | _ => false

/-- How tightly the operator binds. -/
def precedence : BinaryOperator → Nat
  | bitOr => 4
  | bitXor => 5
  | bitAnd => 6
  | equal | notEqual | strictEqual | strictNotEqual => 7
  | less | lessEqual | greater | greaterEqual | memberOf | instanceOf => 8
  | leftShift | rightShift | unsignedRightShift => 9
  | add | sub => 10
  | mul | div | mod => 11
  | exp => 12

theorem ofText?_text (operator : BinaryOperator) : ofText? operator.text = some operator := by
  cases operator <;> decide +kernel

end BinaryOperator

/-- Operators that may leave their right operand alone. -/
inductive LogicalOperator where
  | and
  | or
  | nullish
deriving DecidableEq

namespace LogicalOperator

def all : List LogicalOperator := [and, or, nullish]

def text : LogicalOperator → String
  | and => "&&"
  | or => "||"
  | nullish => "??"

/-- The operator with this spelling. -/
def ofText? (spelling : String) : Option LogicalOperator :=
  all.find? (·.text == spelling)

/-- How tightly the operator binds. -/
def precedence : LogicalOperator → Nat
  | nullish => 1
  | or => 2
  | and => 3

/-- Whether two operators may not meet without parentheses: `??` and one of `||` and `&&`. -/
def clashes (operator other : LogicalOperator) : Bool :=
  (operator == nullish) != (other == nullish)

theorem ofText?_text (operator : LogicalOperator) : ofText? operator.text = some operator := by
  cases operator <;> decide +kernel

end LogicalOperator

/-- Operators between two operands. -/
inductive InfixOperator where
  | binary (operator : BinaryOperator)
  | logical (operator : LogicalOperator)
deriving DecidableEq

namespace InfixOperator

def text : InfixOperator → String
  | binary operator => operator.text
  | logical operator => operator.text

/-- The operator with this spelling. -/
def ofText? (spelling : String) : Option InfixOperator :=
  ((LogicalOperator.ofText? spelling).map logical).or
    ((BinaryOperator.ofText? spelling).map binary)

/-- How tightly the operator binds; a higher number binds tighter. -/
def precedence : InfixOperator → Nat
  | binary operator => operator.precedence
  | logical operator => operator.precedence

/-- Whether the operator groups to the right. -/
def isRightAssociative (operator : InfixOperator) : Bool :=
  operator == binary .exp

/-- The least precedence in the right operand, where it is not in parentheses. -/
def rightPrecedence (operator : InfixOperator) : Nat :=
  if operator.isRightAssociative then operator.precedence else operator.precedence + 1

/-- Whether the operator followed by `=` is a compound assignment. -/
def hasAssignmentForm : InfixOperator → Bool
  | binary operator => !operator.isComparison
  | logical _ => true

theorem ofText?_text (operator : InfixOperator) : ofText? operator.text = some operator := by
  rcases operator with operator | operator <;> cases operator <;> decide +kernel

theorem precedence_pos (operator : InfixOperator) : 0 < operator.precedence := by
  rcases operator with operator | operator <;> cases operator <;> decide

end InfixOperator

end Estree
