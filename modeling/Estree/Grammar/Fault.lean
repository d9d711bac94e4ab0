import Estree.SyntaxError

/-!
# Faults

Why a text is no expression, and at which offset that shows. The reading works with causes; their
wording is here.
-/

namespace Estree

/-- Something that the grammar wants at a place. -/
inductive Expected where
  | openParen
  | closeParen
  | colon
  | computedClose
  | callClose
  | arrayClose
  | expression
  | expressionAfterComma
  | expressionBeforeComma
  | expressionWithinParen
  | testExpression
  | consequentExpression
  | alternateExpression
  | rightOperand
  | unaryOperand
  | computedProperty
  | propertyName
  | elementBeforeComma
  | callee
  | place
  | exponentValue
deriving DecidableEq

/-- What is called for, in words. -/
def Expected.text : Expected → String
  | openParen => "open paren"
  | closeParen => "paren close"
  | colon => "colon"
  | computedClose => "computed close"
  | callClose => "call close"
  | arrayClose => "array close"
  | expression => "expression"
  | expressionAfterComma => "expression after comma"
  | expressionBeforeComma => "expression before comma"
  | expressionWithinParen => "expression within paren"
  | testExpression => "test expression"
  | consequentExpression => "consequent expression"
  | alternateExpression => "alternate expression"
  | rightOperand => "right hand expression"
  | unaryOperand => "unary operand"
  | computedProperty => "computed property"
  | propertyName => "identifier"
  | elementBeforeComma => "element before comma"
  | callee => "callee"
  | place => "identifier or member expression"
  | exponentValue => "exponent value"

/-- Why a text is no expression. -/
inductive Cause where
  /-- Something is missing. -/
  | expected (what : Expected)
  /-- A complete expression is followed by this character. -/
  | unexpected (c : Char)
  /-- The text has more bytes than the limit. -/
  | tooLong (limit : Nat)
  /-- More productions are open than the limit allows. -/
  | tooDeep
  /-- `-a ** b` -/
  | unaryBeforeExponent
  /-- `a ?? b || c` -/
  | mixedNullish
  /-- `new a?.b` -/
  | chainInNew
  /-- A numeric literal that is no decimal. -/
  | invalidNumber (raw : String)
  /-- The reading was given too few steps. -/
  | outOfFuel
deriving DecidableEq

/-- The wording of a cause. -/
def Cause.message : Cause → String
  | expected what => "expected " ++ what.text
  | unexpected c => "unexpected character '" ++ String.singleton c ++ "'"
  | tooLong limit => "source exceeds maximum length of " ++ limit.repr ++ " bytes"
  | tooDeep => "expression nested too deeply"
  | unaryBeforeExponent => "unary operator before exponentiation requires parentheses"
  | mixedNullish => "cannot mix ?? with || or && without parentheses"
  | chainInNew => "chain expression not allowed in new expression"
  | invalidNumber raw => "invalid number '" ++ raw ++ "'"
  | outOfFuel => "reading was given too few steps"

/-- A cause at an offset. -/
structure Fault where
  cause : Cause
  offset : Nat
deriving DecidableEq

/-- The fault as an error in `source`. -/
def Fault.toError (fault : Fault) (source : String) : SyntaxError :=
  .atOffset source fault.offset fault.cause.message

end Estree
