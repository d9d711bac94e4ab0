import Estree.Proofs.Grammar.Token

/-!
# What stands beside an operand

A text is written operand by operand, and what comes after one of them decides how far it is read:
after `a` the reader goes on with `.b`, `(`, `++`, `?.` or an infix operator. To read a text again
it must be known that none of these follows where the operand was meant to end. What may come after
it depends on the place only, and there are three:

* `Follows`: after an operand, thus an infix operator or `?` with spaces around it, or what follows;
* `FollowsExpression`: after an expression without commas, thus `:`, a comma, or what closes;
* `Closes`: after expressions with commas, thus a closing bracket or the end of the text.

Each is contained in the one before it (`Closes.followsExpression`, `FollowsExpression.follows`), so
the lemmas are about the widest one that they hold for: on what follows an operand no access is read
(`access?_eq_none`), no call (`head?_ne_paren`), no update (`updateOperator?_eq_none`), and no name
goes on (`not_isIdentifierPart`); on what follows an expression no infix operator is read either.

`Starts` is the other side: the text of an operand begins with no blank, so skipping blanks before
it stops there (`Starts.dropWhile_eq`).
-/

namespace Estree

open Token

namespace Source

/-- What may come after an operand. -/
inductive Follows : List Char → Prop
  | nil : Follows []
  | closer {x : Char} {rest : List Char} : x = ')' ∨ x = ']' ∨ x = ',' → Follows (x :: rest)
  | colon {rest : List Char} : Follows (' ' :: ':' :: ' ' :: rest)
  | question {rest : List Char} : Follows (' ' :: '?' :: ' ' :: rest)
  | operator {operator : InfixOperator} {rest : List Char} :
    Follows (' ' :: (operator.text.toList ++ ' ' :: rest))

/-- What may come after an expression without commas. -/
inductive FollowsExpression : List Char → Prop
  | nil : FollowsExpression []
  | closer {x : Char} {rest : List Char} :
    x = ')' ∨ x = ']' ∨ x = ',' → FollowsExpression (x :: rest)
  | colon {rest : List Char} : FollowsExpression (' ' :: ':' :: ' ' :: rest)

/-- What may come after an expression with commas. -/
inductive Closes : List Char → Prop
  | nil : Closes []
  | closer {x : Char} {rest : List Char} : x = ')' ∨ x = ']' → Closes (x :: rest)

variable {rest : List Char}

/-- What closes expressions ends the last of them. -/
theorem Closes.followsExpression (h : Closes rest) : FollowsExpression rest := by
  cases h with
  | nil => exact .nil
  | closer hx =>
    rcases hx with rfl | rfl
    · exact .closer (Or.inl rfl)
    · exact .closer (Or.inr (Or.inl rfl))

/-- There is no blank before what closes. -/
theorem Closes.dropWhile_eq (h : Closes rest) : rest.dropWhile Text.isBlank = rest := by
  cases h with
  | nil => rfl
  | closer hx => rcases hx with rfl | rfl <;> rfl

/-- What closes is no comma. -/
theorem Closes.head?_ne_comma (h : Closes rest) : rest.head? ≠ some ',' := by
  cases h with
  | nil => exact nofun
  | closer hx => rcases hx with rfl | rfl <;> simp

/-- What ends an expression ends its last operand. -/
theorem FollowsExpression.follows (h : FollowsExpression rest) : Follows rest := by
  cases h with
  | nil => exact .nil
  | closer hx => exact .closer hx
  | colon => exact .colon

/-- Blanks before an operator are passed, and no others are there. -/
theorem dropWhile_operator (operator : InfixOperator) :
    (' ' :: (operator.text.toList ++ ' ' :: rest)).dropWhile Text.isBlank =
      operator.text.toList ++ ' ' :: rest := by
  rcases operator with operator | operator <;> cases operator <;> rfl

/-- The space before an operator is skipped, and no line end is needed for it. -/
theorem dropWhile_operator_inline (operator : InfixOperator) :
    (' ' :: (operator.text.toList ++ ' ' :: rest)).dropWhile Text.isInlineBlank =
      operator.text.toList ++ ' ' :: rest := by
  rcases operator with operator | operator <;> cases operator <;> rfl

/-- No infix operator begins like a call, a fraction or a bracket. -/
theorem operator_head (operator : InfixOperator) : ∃ x xs, operator.text.toList = x :: xs ∧
    x ≠ '(' ∧ x ≠ '.' ∧ x ≠ '[' ∧ (x = '?' → operator = .logical .nullish) ∧
      (x = '+' → operator = .binary .add) ∧ (x = '-' → operator = .binary .sub) := by
  rcases operator with operator | operator <;> cases operator <;>
    exact ⟨_, _, rfl, by decide, by decide, by decide, by decide, by decide, by decide⟩

/-- No infix operator begins as an access does; `??` is no `?.`. -/
theorem access?_operator (operator : InfixOperator) :
    access? (operator.text.toList ++ ' ' :: rest) = none := by
  obtain ⟨x, xs, htext, -, hpoint, hbracket, hquestion, -⟩ := operator_head operator
  by_cases hx : x = '?'
  · obtain rfl := hquestion hx
    rfl
  · rw [htext]
    refine access?_eq_none fun y hy => ?_
    obtain rfl := Option.some.inj hy
    exact ⟨hx, hpoint, hbracket⟩

/-- None begins as an update does: `+` and `-` have a space after them. -/
theorem updateOperator?_operator (operator : InfixOperator) :
    updateOperator? (operator.text.toList ++ ' ' :: rest) = none := by
  obtain ⟨x, xs, htext, -, -, -, -, hplus, hminus⟩ := operator_head operator
  by_cases hx : x = '+'
  · obtain rfl := hplus hx
    rfl
  · by_cases hx' : x = '-'
    · obtain rfl := hminus hx'
      rfl
    · rw [htext]
      refine updateOperator?_eq_none fun y hy => ?_
      obtain rfl := Option.some.inj hy
      exact ⟨hx, hx'⟩

namespace Follows

/-- No access goes on. -/
theorem access?_eq_none (h : Follows rest) : access? (rest.dropWhile Text.isBlank) = none := by
  cases h with
  | nil => rfl
  | closer hx => rcases hx with rfl | rfl | rfl <;> rfl
  | colon => rfl
  | question => rfl
  | operator =>
    rw [dropWhile_operator]
    exact access?_operator _

/-- No call goes on. -/
theorem head?_ne_paren (h : Follows rest) : (rest.dropWhile Text.isBlank).head? ≠ some '(' := by
  cases h with
  | nil => exact nofun
  | closer hx =>
    rcases hx with rfl | rfl | rfl
    · exact (by decide : some ')' ≠ some '(')
    · exact (by decide : some ']' ≠ some '(')
    · exact (by decide : some ',' ≠ some '(')
  | colon => exact (by decide : some ':' ≠ some '(')
  | question => exact (by decide : some '?' ≠ some '(')
  | @operator operator rest =>
    obtain ⟨x, xs, htext, hparen, -⟩ := operator_head operator
    rw [dropWhile_operator, htext]
    exact fun heq => hparen (Option.some.inj heq)

/-- No update operator comes after it on the line. -/
theorem updateOperator?_eq_none (h : Follows rest) :
    updateOperator? (rest.dropWhile Text.isInlineBlank) = none := by
  cases h with
  | nil => rfl
  | closer hx => rcases hx with rfl | rfl | rfl <;> rfl
  | colon => rfl
  | question => rfl
  | operator =>
    rw [dropWhile_operator_inline]
    exact updateOperator?_operator _

/-- No word and no number goes on. -/
theorem not_isIdentifierPart (h : Follows rest) :
    ∀ x ∈ rest.head?, Text.isIdentifierPart x = false ∧ x ≠ '.' := by
  intro x hx
  have hspace : Text.isIdentifierPart ' ' = false ∧ ' ' ≠ '.' :=
    ⟨Text.isIdentifierPart_of_mem_symbols (by decide), by decide⟩
  cases h with
  | nil => cases hx
  | closer h =>
    obtain rfl := Option.some.inj hx
    rcases h with rfl | rfl | rfl <;>
      exact ⟨Text.isIdentifierPart_of_mem_symbols (by decide), by decide⟩
  | colon | question | operator =>
    obtain rfl := Option.some.inj hx
    exact hspace

end Follows

/-- No operator goes on after an expression. -/
theorem FollowsExpression.infixOperator?_eq_none (h : FollowsExpression rest) :
    infixOperator? (rest.dropWhile Text.isBlank) = none := by
  refine Token.infixOperator?_eq_none fun y hy => ?_
  have hy' : y ∈ Text.symbols ∧ y ∉ infixSymbols := by
    cases h with
    | nil => cases hy
    | closer hx =>
      rcases hx with rfl | rfl | rfl
      · obtain rfl : ')' = y := Option.some.inj hy
        decide
      · obtain rfl : ']' = y := Option.some.inj hy
        decide
      · obtain rfl : ',' = y := Option.some.inj hy
        decide
    | colon =>
      obtain rfl : ':' = y := Option.some.inj hy
      decide
  exact ⟨Text.isIdentifierStart_of_mem_symbols hy'.1, hy'.2⟩

/-- No conditional goes on after an expression. -/
theorem FollowsExpression.head?_ne_question (h : FollowsExpression rest) :
    (rest.dropWhile Text.isBlank).head? ≠ some '?' := by
  cases h with
  | nil => exact nofun
  | closer hx =>
    rcases hx with rfl | rfl | rfl
    · exact (by decide : some ')' ≠ some '?')
    · exact (by decide : some ']' ≠ some '?')
    · exact (by decide : some ',' ≠ some '?')
  | colon => exact (by decide : some ':' ≠ some '?')

/-! ## How texts begin -/

/-- The text begins with something that is no blank. -/
def Starts (text : List Char) : Prop :=
  ∃ x xs, text = x :: xs ∧ Text.isBlank x = false

namespace Starts

variable {text : List Char}

/-- Nothing is skipped before a text that begins with no blank. -/
theorem dropWhile_eq (h : Starts text) :
    (text ++ rest).dropWhile Text.isBlank = text ++ rest := by
  obtain ⟨x, xs, rfl, hx⟩ := h
  rw [List.cons_append, List.dropWhile_cons_of_neg (Bool.eq_false_iff.1 hx)]

/-- A space before it is passed. -/
theorem dropWhile_space (h : Starts text) :
    (' ' :: (text ++ rest)).dropWhile Text.isBlank = text ++ rest := by
  rw [List.dropWhile_cons_of_pos (by rfl), h.dropWhile_eq]

/-- Whatever comes after it, the text begins so. -/
theorem append (h : Starts text) : Starts (text ++ rest) := by
  obtain ⟨x, xs, rfl, hx⟩ := h
  exact ⟨x, xs ++ rest, rfl, hx⟩

/-- Such a text is not empty. -/
theorem ne_nil (h : Starts text) : text ≠ [] := by
  obtain ⟨x, xs, rfl, -⟩ := h
  exact List.cons_ne_nil x xs

/-- Parentheses are no blank, and what they hold begins the text if there are none. -/
theorem group (h : Starts text) (isGrouped : Bool) : Starts (group isGrouped text) := by
  cases isGrouped with
  | true => exact ⟨'(', _, rfl, rfl⟩
  | false => exact h

end Starts

end Source

end Estree
