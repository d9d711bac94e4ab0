import Estree.Proofs.Source.Lists
import Estree.Proofs.Source.Opening

/-!
# Operators read again

Updates, unary operators, operands with an infix operator between them and conditionals are read as
the trees that they were written for, if their operands are. Each result has the places of the
grammar (`ReadsToken`, `ReadsUnary`, `ReadsClimb`, `ReadsExpression`) in its hypotheses for the
operands and in its conclusion for the whole.

> `readsClimb_infix`: what is asked of the operands of an infix operator is what decides about their
> parentheses, namely that neither binds less tightly than its place demands, that a unary operator
> is not raised to a power, and that `??` does not meet `&&` or `||`.

> `readsToken_trailingUpdate`, `readsUnary_operator`: `++` and `--` after a place and unary
> operators before an operand, where a space keeps the operator apart from one that follows.

> `readsExpression_conditional`: a conditional, whose test is not read on into its `?` since this is
> no infix operator.
-/

open Estree.Expr

namespace Estree

open Grammar Token

namespace Source

variable {depth : Nat} {e : Expr} {span : Span} {isDigits hasCall isUnary : Bool} {text : List Char}

/-! ## Updates -/

/-- `++` or `--` before a place. -/
theorem readsToken_leadingUpdate {operator : UpdateOperator}
    (hrun : ReadsRun depth text e isDigits hasCall) (hstarts : Starts text)
    (hspine : e.hasOptionalLink = false) (hplace : e.isPlace = true) :
    ReadsToken (depth + 1) (operator.text.toList ++ text) (.update span operator true e) := by
  intro c rest hc hrest
  rw [List.append_assoc] at hc
  have hblanks : (c.pastBlanks.skip operator.text.length).pastBlanks.rest = text ++ rest :=
    hstarts.pastBlanks_rest (Cursor.skip_length_rest hc)
  have hoperator : updateOperator? c.pastBlanks.rest = some operator := by
    rw [hc]
    exact updateOperator?_text operator
  obtain ⟨node, c₁, htoken, hsame, hc₁⟩ := arrives_finish hrun hblanks hrest
  rw [hspine] at htoken
  have hupdated : Derives depth (.updated operator c.pastBlanks.position) _ _ c₁ :=
    .updated htoken (hsame.isPlace_eq.trans hplace)
  have hruns : RunsTo (depth + 1) c.pastBlanks _ false c₁ :=
    runsTo_primary (.primary (.leadingUpdate hoperator hupdated))
  obtain ⟨c', hderives, hc'⟩ := derives_token hruns
    (by rw [hc₁, Text.dropWhile_dropWhile]) hrest
  refine ⟨_, c', hderives, ?_, pastBlanks_rest_of_inline hc'⟩
  show SameAs (.update _ operator true node) (.update span operator true e)
  rw [SameAs, unplaced, unplaced, hsame]

/-- `++` or `--` after a place. -/
theorem readsToken_trailingUpdate {operator : UpdateOperator}
    (hrun : ReadsRun depth text e isDigits hasCall) (hspine : e.hasOptionalLink = false)
    (hplace : e.isPlace = true) :
    ReadsToken depth (text ++ operator.text.toList) (.update span operator false e) := by
  intro c rest hc hrest
  rw [List.append_assoc] at hc
  -- The operator ends the run whatever its last token is, and it is neither a link nor a blank.
  obtain ⟨x, xs, htext, hword, hpoint, hparen, hblank, haccess⟩ : ∃ x xs,
      operator.text.toList ++ rest = x :: xs ∧ Text.isIdentifierPart x = false ∧ x ≠ '.' ∧
        x ≠ '(' ∧ Text.isBlank x = false ∧ access? (x :: xs) = none := by
    cases operator with
    | increment =>
      have hword := Text.isIdentifierPart_of_mem_symbols (by decide : '+' ∈ Text.symbols)
      exact ⟨'+', _, rfl, hword, by decide, by decide, rfl, rfl⟩
    | decrement =>
      have hword := Text.isIdentifierPart_of_mem_symbols (by decide : '-' ∈ Text.symbols)
      exact ⟨'-', _, rfl, hword, by decide, by decide, rfl, rfl⟩
  have hends : EndsRun isDigits (operator.text.toList ++ rest) := by
    rw [htext]
    refine ⟨fun y hy => ?_, fun _ hy => hpoint (Option.some.inj hy)⟩
    obtain rfl := Option.some.inj hy
    exact hword
  obtain ⟨⟨node, _⟩, c₂, hruns, hsame, rfl, hc₂⟩ := hrun c.pastBlanks _ hc hends
  have hinline : (c₂.skipBlanks false).rest = operator.text.toList ++ rest := by
    show c₂.rest.dropWhile Text.isInlineBlank = _
    rw [hc₂, htext, List.dropWhile_cons_of_neg fun hx => ?_]
    rw [Text.isBlank_of_isInlineBlank hx] at hblank
    cases hblank
  have hblanks : c₂.pastBlanks.rest = x :: xs := by
    rw [Cursor.pastBlanks_rest, hc₂, htext, dropWhile_cons_nonblank hblank]
  have hupdate : updateOperator? (c₂.skipBlanks false).rest = some operator := by
    rw [hinline]
    exact updateOperator?_text operator
  have hfinish : Links.finish ⟨node, e.hasOptionalLink⟩ = node := by
    rw [hspine]
    rfl
  have htoken := hruns.trailingUpdate (by rwa [hblanks])
    (by rw [hblanks]; exact fun heq => hparen (Option.some.inj heq)) hupdate
    (by rw [hfinish]; exact hsame.isPlace_eq.trans hplace)
  rw [hfinish] at htoken
  refine ⟨_, _, htoken, ?_, ?_⟩
  · rw [SameAs, unplaced, unplaced, hsame]
  · rw [Cursor.pastBlanks_rest]
    exact congrArg (List.dropWhile Text.isBlank) (Cursor.skip_length_rest hinline)

/-! ## Unary operators -/

/-- A unary operator before what is read as an operand past blanks. -/
theorem readsUnary_operator {operator : UnaryOperator} {argument : List Char}
    (h : ReadsUnary depth text e isUnary)
    (hoperator : ∀ rest, unaryOperator? (operator.text.toList ++ argument ++ rest) = some operator)
    (hargument : ∀ rest, (argument ++ rest).dropWhile Text.isBlank = text ++ rest) :
    ReadsUnary (depth + 1) (operator.text.toList ++ argument) (.unary span operator true e)
      true := by
  intro c rest hc hrest
  refine ⟨by rw [hoperator]; rfl, ?_⟩
  have hblanks : (c.pastBlanks.skip operator.text.length).pastBlanks.rest = text ++ rest := by
    rw [List.append_assoc] at hc
    have hc₁ : (c.pastBlanks.skip operator.text.length).rest = argument ++ rest :=
      Cursor.skip_length_rest hc
    rw [Cursor.pastBlanks_rest, hc₁, hargument]
  obtain ⟨-, e', c', hderives, hsame, hc'⟩ := h _ rest hblanks hrest
  have hfound : unaryOperator? c.pastBlanks.rest = some operator := by rw [hc, hoperator]
  refine ⟨_, c', .unary (.unaryOperator hfound hderives), ?_, hc'⟩
  rw [SameAs, unplaced, unplaced, hsame]

/-- A unary operator before an operand. -/
theorem readsUnary_unary {operator : UnaryOperator} (h : ReadsUnary depth text e isUnary)
    (hstarts : Starts text) :
    ReadsUnary (depth + 1) (unaryText operator text) (.unary span operator true e) true := by
  refine readsUnary_operator h (fun rest => unaryOperator?_text hstarts.ne_nil) fun rest => ?_
  split
  next => exact hstarts.dropWhile_space
  next => exact hstarts.dropWhile_eq

/-- A unary operator, a space and an operand. -/
theorem readsUnary_spaced {operator : UnaryOperator} (h : ReadsUnary depth text e isUnary)
    (hstarts : Starts text) :
    ReadsUnary (depth + 1) (operator.text.toList ++ ' ' :: text) (.unary span operator true e)
      true := by
  refine readsUnary_operator h (fun rest => ?_) fun rest => hstarts.dropWhile_space
  cases operator <;> rfl

/-! ## Infix operators -/

/-- Operands with an operator between them are read as joined by it. -/
theorem readsClimb_infix {operator : InfixOperator} {left right : Expr}
    {leftText rightText : List Char} {leftLogical? rightLogical? : Option LogicalOperator}
    {leftUnary rightUnary : Bool} {leftBound? rightBound? : Option Nat} {least : Nat}
    (hleft : ReadsClimb (depth + 1) leftText left leftLogical? leftUnary leftBound? least)
    (hright : ReadsClimb depth rightText right rightLogical? rightUnary rightBound?
      operator.rightPrecedence)
    (hstarts : Starts rightText) (hleast : least ≤ operator.precedence)
    (hunary : ¬(leftUnary = true ∧ operator = .binary .exp))
    (hleftBound : ∀ bound ∈ leftBound?, operator.precedence < bound)
    (hrightBound : ∀ bound ∈ rightBound?, operator.rightPrecedence ≤ bound)
    (hallows : ∀ left right, operator.Allows ⟨left, leftLogical?⟩ ⟨right, rightLogical?⟩) :
    ReadsClimb (depth + 1) (infixText operator leftText rightText) (operator.join left right)
      operator.logical? false (some operator.rightPrecedence) least := by
  intro c rest hc hrest hbound
  have hc₀ : c.pastBlanks.rest =
      leftText ++ ' ' :: (operator.text.toList ++ ' ' :: (rightText ++ rest)) := by
    rw [hc, infixText, List.append_assoc, List.cons_append, List.append_assoc, List.cons_append]
  -- The operator after the left operand is `operator` itself, which ends what is read for it.
  have hnext : ∀ bound ∈ leftBound?, ∀ next ∈ infixOperator?
      ((' ' :: (operator.text.toList ++ ' ' :: (rightText ++ rest))).dropWhile Text.isBlank),
      next.precedence < bound := by
    rw [dropWhile_operator, infixOperator?_text]
    rintro bound hmem _ ⟨⟩
    exact hleftBound bound hmem
  obtain ⟨left', c₁, hgoes, hsame, hc₁⟩ := hleft c _ hc₀ .operator hnext
  rw [dropWhile_operator] at hc₁
  have hblanks := hstarts.pastBlanks_rest_space (Cursor.skip_length_rest hc₁)
  -- What follows binds less tightly than `operator`, so no further operator is part of the right
  -- operand.
  have hrest' : ∀ next ∈ infixOperator? (rest.dropWhile Text.isBlank),
      next.precedence < operator.rightPrecedence := hbound _ rfl
  obtain ⟨right', c₂, hoperands, hsame', hc₂⟩ := derives_operands hright hblanks hrest
    (fun bound hmem next hnext => Nat.lt_of_lt_of_le (hrest' next hnext) (hrightBound bound hmem))
    hrest'
  refine ⟨operator.join left' right', c₂, fun hinfixes => hgoes ?_, ?_, ?_⟩
  · refine .joined ?_ hleast hunary hoperands (hallows left' right') hinfixes
    rw [hc₁]
    exact infixOperator?_text operator
  · rcases operator with operator | operator
    · show SameAs (.binary _ operator left' right') (.binary _ operator left right)
      rw [SameAs, unplaced, unplaced, hsame, hsame']
    · show SameAs (.logical _ operator left' right') (.logical _ operator left right)
      rw [SameAs, unplaced, unplaced, hsame, hsame']
  · rw [Cursor.pastBlanks_rest, hc₂, Text.dropWhile_dropWhile]

/-! ## Conditionals -/

/-- The `?` of a conditional is no infix operator: a space follows. -/
theorem infixOperator?_question {rest : List Char} :
    infixOperator? ('?' :: ' ' :: rest) = none := by
  have hspelling : wordOr .infixSymbol ('?' :: ' ' :: rest) = [] := rfl
  rw [infixOperator?, hspelling]
  rfl

/-- A conditional is read as one. -/
theorem readsExpression_conditional {test consequent alternate : Expr}
    {logical? : Option LogicalOperator} {bound? : Option Nat}
    (htest : ReadsClimb depth text test logical? isUnary bound? 1)
    (hconsequent : ReadsItem (depth + 1) consequent)
    (halternate : ReadsItem (depth + 1) alternate) :
    ReadsExpression (depth + 2)
      (text ++ ' ' :: '?' :: ' ' ::
        (itemText consequent ++ ' ' :: ':' :: ' ' :: itemText alternate))
      (.conditional span test consequent alternate) := by
  intro c rest hc hrest
  have hc₀ : c.pastBlanks.rest = text ++ ' ' :: '?' :: ' ' ::
      (itemText consequent ++ ' ' :: ':' :: ' ' :: (itemText alternate ++ rest)) := by
    rw [hc, List.append_assoc]
    show text ++ ' ' :: '?' :: ' ' ::
      (itemText consequent ++ ' ' :: ':' :: ' ' :: itemText alternate ++ rest) = _
    rw [List.append_assoc]
    rfl
  -- The `?` has a space behind it, so the test is not read on into it.
  have hnone : infixOperator? ((' ' :: '?' :: ' ' ::
      (itemText consequent ++ ' ' :: ':' :: ' ' :: (itemText alternate ++ rest))).dropWhile
      Text.isBlank) = none := infixOperator?_question
  obtain ⟨test', c₁, hoperands, hsame, hc₁⟩ :=
    derives_operands htest hc₀ .question (by simp [hnone]) (by simp [hnone])
  have hquestion : c₁.pastBlanks.rest = '?' :: ' ' ::
      (itemText consequent ++ ' ' :: ':' :: ' ' :: (itemText alternate ++ rest)) := by
    rw [Cursor.pastBlanks_rest, hc₁]
    rfl
  have hblanks₁ : (c₁.pastBlanks.skip 1).pastBlanks.rest =
      itemText consequent ++ ' ' :: ':' :: ' ' :: (itemText alternate ++ rest) :=
    hconsequent.starts.pastBlanks_rest_space (by rw [Cursor.skip_rest, hquestion]; rfl)
  obtain ⟨consequent', c₂, hderives₁, hsame₁, hc₂⟩ := hconsequent.reads _ _ hblanks₁ .colon
  have hcolon : c₂.pastBlanks.rest = ':' :: ' ' :: (itemText alternate ++ rest) := hc₂
  have hblanks₂ : (c₂.pastBlanks.skip 1).pastBlanks.rest = itemText alternate ++ rest :=
    halternate.starts.pastBlanks_rest_space (by rw [Cursor.skip_rest, hcolon]; rfl)
  obtain ⟨alternate', c', hderives₂, hsame₂, hc'⟩ := halternate.reads _ _ hblanks₂ hrest
  have hconditional := Derives.conditional hoperands (by rw [hquestion]; rfl) hderives₁
    (by rw [hcolon]; rfl) hderives₂
  refine ⟨_, c', .expression hconditional, ?_, hc'⟩
  rw [SameAs, unplaced, unplaced, hsame, hsame₁, hsame₂]

end Source

end Estree
