import Estree.Proofs.Grammar.Fuel

/-!
# What a left operand is followed by

The rules of operands and operators as equations between outcomes. Unlike a derivation, they also
say where a reading ends in a fault: where an operator goes on with a left operand, the outcome is
that of its right operand if this ends in a fault, a fault of the operator itself if it may not
stand between its operands, and otherwise the outcome after both have been joined.

> `infixes_bareUnary`, `infixes_rightFault`, `infixes_clash`: the three faults, for any grammar of
> which the outcome of the right operand is known.
> `afterOperand`: what is left to read after a left operand, in the grammar that has steps enough.
> It is what an induction over a row of operands goes along.
> `entire_sequence_eq_ok`, `entire_sequence_eq_error`: from the operands to a whole text.
-/

namespace Estree

open Scan

namespace Grammar

/-! ## Operators -/

section Rules

variable {g : Grammar} {depth least : Nat} {c c' : Cursor} {left right : Climbed}
  {isBareUnary : Bool} {operator : InfixOperator} {fault : Fault}

/-- A unary operator right before `**` is noticed before the right operand is read. -/
theorem infixes_bareUnary (hop : Token.infixOperator? c.pastBlanks.rest = some (.binary .exp))
    (hleast : least ≤ (InfixOperator.binary .exp).precedence) :
    ∃ offset, g.infixes depth least left true c =
      .error ⟨.unaryBeforeExponent, offset⟩ c.pastBlanks := by
  refine ⟨left.expr.span.start, ?_⟩
  rw [infixes, skipBlanks_bind, ahead_bind, hop]
  dsimp only
  rw [if_neg (Nat.not_lt.2 hleast), if_pos (by decide)]
  rfl

/-- A fault in the right operand is the outcome. -/
theorem infixes_rightFault (hop : Token.infixOperator? c.pastBlanks.rest = some operator)
    (hleast : least ≤ operator.precedence)
    (hbare : ¬(isBareUnary = true ∧ operator = .binary .exp))
    (hright : g depth (.operands operator.rightPrecedence)
      (c.pastBlanks.skip operator.text.length) = .error fault c') :
    g.infixes depth least left isBareUnary c = .error fault c' := by
  have hbare' : ¬(isBareUnary && operator == .binary .exp) = true := by simpa using hbare
  rw [infixes, skipBlanks_bind, ahead_bind, hop]
  dsimp only
  rw [if_neg (Nat.not_lt.2 hleast), if_neg hbare', position_bind, skip_bind, bind_error hright]

/-- An operand that clashes with the operator is noticed when both operands have been read. -/
theorem infixes_clash (hop : Token.infixOperator? c.pastBlanks.rest = some operator)
    (hleast : least ≤ operator.precedence)
    (hright : g depth (.operands operator.rightPrecedence)
      (c.pastBlanks.skip operator.text.length) = .ok (some right) c')
    (hclash : ¬operator.Allows left right) :
    ∃ offset, g.infixes depth least left isBareUnary c = .error ⟨.mixedNullish, offset⟩ c' := by
  refine ⟨c.pastBlanks.position, ?_⟩
  -- Nothing clashes with an operator that is not logical.
  cases operator with
  | binary operator =>
    refine absurd ?_ hclash
    rintro _ ⟨⟩
  | logical logical =>
    have hbare : ¬(isBareUnary && InfixOperator.logical logical == .binary .exp) = true := by simp
    have hclashes : (left.clashes logical || right.clashes logical) = true := by
      refine Bool.of_not_eq_false fun hnone => hclash ?_
      rintro _ ⟨⟩
      exact Bool.or_eq_false_iff.1 hnone
    rw [infixes, skipBlanks_bind, ahead_bind, hop]
    dsimp only
    rw [if_neg (Nat.not_lt.2 hleast), if_neg hbare, position_bind, skip_bind, bind_run hright]
    show (if left.clashes logical || right.clashes logical then _ else _ : Scan Climbed) c' = _
    rw [hclashes, if_pos rfl]
    rfl

/-! ## Faults further out -/

/-- A fault in the operands is one of the conditional. -/
theorem conditional_fault (h : g depth (.operands 1) c = .error fault c') :
    g.conditional depth c = .error fault c' := by
  rw [conditional, bind_error h]

/-- A fault in an expression is one of the list. -/
theorem expressions_fault {isFirst : Bool} (h : g depth .expression c = .error fault c') :
    g.expressions depth isFirst c = .error fault c' := by
  rw [expressions, bind_error h]

/-- A fault in the list is one of the sequence. -/
theorem sequence_fault (h : g depth (.expressions true) c.pastBlanks = .error fault c') :
    g.sequence depth false c = .error fault c' := by
  rw [sequence, skipBlanks_bind, position_bind]
  dsimp only
  rw [if_neg Bool.false_ne_true, bind_error h]

end Rules

/-! ## Reading without a count of steps -/

section Entire

variable {depth used least : Nat} {p : Production} {c c' : Cursor}

/-- A derivation is followed if there are levels enough. -/
theorem Derives.entire_eq_ok {v : p.Yield} (h : Derives used p c v c')
    (hdepth : used ≤ depth ∨ 4 * c.rest.length + levels p ≤ depth) :
    entire depth p c = .ok v c' :=
  h.unfold_eq_ok ⟨Nat.lt_succ_self _, hdepth⟩

/-- What is left to read after a left operand. -/
def afterOperand (depth least : Nat) (left : Climbed) (isBareUnary : Bool) :
    Scan (Option Climbed) := do
  return some (← entire depth (.infixes least left isBareUnary))

/-- Operands are read as the first one and what is left after it. -/
theorem entire_climb {left : Expr} (h : entire depth .unary c.pastBlanks = .ok (some left) c') :
    entire depth (.climb least) c =
      afterOperand depth least ⟨left, none⟩ (Token.unaryOperator? c.pastBlanks.rest).isSome c' := by
  rw [readsByRule_entire]
  show entire.climb depth least c = _
  rw [climb, skipBlanks_bind, ahead_bind, bind_run h]
  rfl

/-- Operators are read by their rule. -/
theorem entire_infixes (depth least : Nat) (left : Climbed) (isBareUnary : Bool) (c : Cursor) :
    entire depth (.infixes least left isBareUnary) c =
      entire.infixes depth least left isBareUnary c :=
  readsByRule_entire depth (.infixes least left isBareUnary) c

/-- Operands take a level. -/
theorem entire_operands (depth least : Nat) (c : Cursor) :
    entire (depth + 1) (.operands least) c = entire depth (.climb least) c :=
  readsByRule_entire (depth + 1) (.operands least) c

variable {left climbed : Climbed} {isBareUnary : Bool} {fault : Fault}

/-- What is left depends only on what the operators come to. -/
theorem afterOperand_eq {left₁ : Climbed} {isBareUnary₁ : Bool}
    (h : entire depth (.infixes least left isBareUnary) c =
      entire depth (.infixes least left₁ isBareUnary₁) c') :
    afterOperand depth least left isBareUnary c =
      afterOperand depth least left₁ isBareUnary₁ c' := by
  show EStateM.bind _ _ c = EStateM.bind _ _ c'
  rw [EStateM.bind, EStateM.bind, h]

/-- No operator that follows belongs to the operands. -/
theorem afterOperand_stops
    (h : ∀ operator ∈ Token.infixOperator? c.pastBlanks.rest, operator.precedence < least) :
    afterOperand depth least left isBareUnary c = .ok (some left) c.pastBlanks := by
  have hstops : entire depth (.infixes least left isBareUnary) c = .ok left c.pastBlanks := by
    rw [entire_infixes]
    exact noInfix_run h
  exact bind_run hstops

/-- A fault of the operators is the outcome. -/
theorem afterOperand_fault (h : entire.infixes depth least left isBareUnary c = .error fault c') :
    afterOperand depth least left isBareUnary c = .error fault c' := by
  rw [← entire_infixes] at h
  exact bind_error h

/-- Operands up to the end of the text make up all that is read. -/
theorem entire_sequence_eq_ok
    (h : entire depth (.operands 1) c.pastBlanks = .ok (some climbed) c')
    (hend : c'.pastBlanks.rest = []) :
    entire (depth + 1) (.sequence false) c =
      .ok (some climbed.expr) c'.pastBlanks.pastBlanks := by
  have hquestion : c'.pastBlanks.rest.head? ≠ some '?' := by
    rw [hend]
    exact nofun
  have hcomma : c'.pastBlanks.pastBlanks.rest.head? ≠ some ',' := by
    rw [c'.pastBlanks_pastBlanks, hend]
    exact nofun
  have hconditional : entire depth .conditional c.pastBlanks = _ :=
    (readsByRule_entire ..).trans (unconditional_run h hquestion)
  have hexpression : entire (depth + 1) .expression c.pastBlanks = _ :=
    (readsByRule_entire ..).trans (nested_run hconditional)
  have hexpressions : entire (depth + 1) (.expressions true) c.pastBlanks = _ :=
    (readsByRule_entire ..).trans (lastExpression_run hexpression (fun _ => rfl) hcomma)
  exact (readsByRule_entire ..).trans (sequence_run hexpressions)

/-- A fault in the operands is one of the text. -/
theorem entire_sequence_eq_error
    (h : entire depth (.operands 1) c.pastBlanks = .error fault c') :
    entire (depth + 1) (.sequence false) c = .error fault c' := by
  have hconditional : entire depth .conditional c.pastBlanks = _ :=
    (readsByRule_entire ..).trans (conditional_fault h)
  have hexpression : entire (depth + 1) .expression c.pastBlanks = .error fault c' :=
    (readsByRule_entire ..).trans hconditional
  have hexpressions : entire (depth + 1) (.expressions true) c.pastBlanks = _ :=
    (readsByRule_entire ..).trans (expressions_fault hexpression)
  exact (readsByRule_entire ..).trans (sequence_fault hexpressions)

end Entire

end Grammar

/-! ## Whole texts -/

namespace Scan

variable {g : Grammar} {maxDepth : Nat} {c c' : Cursor}

/-- A sequence to the end of the text is what is read. -/
theorem programBy_eq_ok {e : Expr} (h : g maxDepth (.sequence false) c = .ok (some e) c')
    (hend : c'.pastBlanks.rest = []) : programBy g maxDepth c = .ok e c'.pastBlanks := by
  rw [programBy, programOf, ahead_bind, bind_run h, skipBlanks_bind, ahead_bind, hend]
  rfl

/-- A fault in the sequence is the outcome. -/
theorem programBy_eq_error {fault : Fault}
    (h : g maxDepth (.sequence false) c = .error fault c') :
    programBy g maxDepth c = .error fault c' := by
  rw [programBy, programOf, ahead_bind, bind_error h]

end Scan

/-- A fault that reading without a count of steps ends in is what the text is refused for. -/
theorem Expr.parseWithin_eq_error {limits : Limits} {source : String} {fault : Fault} {c' : Cursor}
    (hlength : limits.exceeded? source = none)
    (h : Scan.programBy Grammar.entire limits.maxDepth (.ofString source) = .error fault c') :
    parseWithin limits source = .error (fault.toError source) := by
  rw [parseWithin_eq_parseBy Grammar.readsByRule_entire, parseBy, hlength, h]
  rfl

end Estree
