import Estree.Expr
import Estree.Grammar.Scan

/-!
# Tokens

Which operator stands at the start of a text. There are no tokens before the grammar asks for them:
the same characters are read differently at different places.
-/

namespace Estree

/-- What begins a member access: `.`, `?.`, `[` or `?.[`. -/
structure Access where
  optional : Bool
  computed : Bool
deriving DecidableEq

namespace Access

def all : List Access := [⟨true, true⟩, ⟨true, false⟩, ⟨false, false⟩, ⟨false, true⟩]

def text : Access → String
  | ⟨true, true⟩ => "?.["
  | ⟨true, false⟩ => "?."
  | ⟨false, false⟩ => "."
  | ⟨false, true⟩ => "["

/-- The access with this spelling. -/
def ofText? (spelling : String) : Option Access :=
  all.find? (·.text == spelling)

end Access

namespace Token

/-- The word at the start of a text, or else what a pattern takes there. -/
def wordOr (symbol : Pattern) (text : List Char) : List Char :=
  match Text.leadingWord text with
  | [] => symbol.piece text
  | word => word

/-- The unary operator at the start of a text. `++` and `--` are none. -/
def unaryOperator? (text : List Char) : Option UnaryOperator :=
  if Pattern.updateOperator.isAtStart text then
    none
  else
    UnaryOperator.ofText? (String.ofList (wordOr .unarySymbol text))

/-- The infix operator at the start of a text. It is none if it is the beginning of a compound
assignment, of `++` or of `--`. -/
def infixOperator? (text : List Char) : Option InfixOperator :=
  let spelling := wordOr .infixSymbol text
  let next := (text.drop spelling.length).head?
  (InfixOperator.ofText? (String.ofList spelling)).filter fun operator =>
    let isCompound := next == some '=' && operator.hasAssignmentForm
    let isDoubled :=
      (operator == .binary .add && next == some '+') ||
        (operator == .binary .sub && next == some '-')
    !isCompound && !isDoubled

/-- What begins a member access at the start of a text. In `a ?.5 : b` nothing does. -/
def access? (text : List Char) : Option Access :=
  if Pattern.questionBeforeFraction.isAtStart text then
    none
  else
    Access.ofText? (String.ofList (Pattern.access.piece text))

/-- The update operator at the start of a text. -/
def updateOperator? (text : List Char) : Option UpdateOperator :=
  UpdateOperator.ofText? (String.ofList (Pattern.updateOperator.piece text))

variable {σ : Type} [HasCursor σ]

/-- Takes an access, if one begins here. -/
def takeAccess? : ScanOf σ (Option Access) := do
  let found := access? (← Scan.ahead)
  if let some access := found then
    Scan.skip access.text.length
  return found

/-- Takes an update operator, if one is here. -/
def takeUpdate? : ScanOf σ (Option UpdateOperator) := do
  let found := updateOperator? (← Scan.ahead)
  if let some operator := found then
    Scan.skip operator.text.length
  return found

end Token

end Estree
