import Estree.Proofs.Grammar.Derivation

/-!
# Where reading stops

What is read goes on as far as it can: after operands there is no operator that would have been one
of them, and after a run no link. And nothing is read without some levels, as a primary expression
is looked for in any case.

> `Cursor.HasNoLink`: no member access and no call goes on at the cursor.
> `Derives.stops`: what does not follow, for each production that goes on as long as it can.
> `Derives.leastDepth_le`: so many levels have been there, even where nothing has been read.
-/

namespace Estree

/-- No member access and no call goes on at the cursor. -/
structure Cursor.HasNoLink (c : Cursor) : Prop where
  access : Token.access? c.pastBlanks.rest = none
  paren : c.pastBlanks.rest.head? ≠ some '('

/-- Blanks without line ends are no reason for a link to go on or not. -/
theorem Cursor.pastBlanks_skipBlanks_rest (c : Cursor) :
    (c.skipBlanks false).pastBlanks.rest = c.pastBlanks.rest :=
  Text.dropWhile_inlineBlank c.rest

/-- Behind the blanks of the line no link goes on either. -/
theorem Cursor.HasNoLink.skipBlanks {c : Cursor} (h : c.HasNoLink) :
    (c.skipBlanks false).HasNoLink where
  access := by
    rw [c.pastBlanks_skipBlanks_rest]
    exact h.access
  paren := by
    rw [c.pastBlanks_skipBlanks_rest]
    exact h.paren

namespace Grammar

/-! ## What does not follow -/

/-- What does not follow a production. A trailing update operator ends a token without a look at
what follows, but there is no operator to come before it then. -/
def Stops : (p : Production) → p.Yield → Cursor → Prop
  | .operands least, some _, c' | .climb least, some _, c' | .infixes least _ _, _, c' =>
    ∀ operator ∈ Token.infixOperator? c'.pastBlanks.rest, operator.precedence < least
  | .token, some e, c' => e.isPlace = true → c'.HasNoLink
  | .links _, _, c' | .updated .., _, c' => c'.HasNoLink
  | _, _, _ => True

/-- Reading ends where nothing goes on. -/
theorem Derives.stops {depth : Nat} {p : Production} {c c' : Cursor} {v : p.Yield}
    (h : Derives depth p c v c') : Stops p v c' := by
  induction h with
  | @operands _ c c' least climbed? _ ih =>
    cases climbed? with
    | none => trivial
    | some climbed => exact ih
  | climb _ _ _ ih => exact ih
  | @noInfix _ c least left _ hless =>
    show ∀ operator ∈ Token.infixOperator? c.pastBlanks.pastBlanks.rest, _
    rw [c.pastBlanks_pastBlanks]
    exact hless
  | joined _ _ _ _ _ _ _ ih => exact ih
  | token _ _ _ _ ih => exact fun _ => Cursor.HasNoLink.skipBlanks ih
  | trailingUpdate => exact nofun
  | noLink hnone hparen => exact ⟨hnone, hparen⟩
  | linkAccess _ _ _ _ ih => exact ih
  | linkCall _ _ _ _ _ ih => exact ih
  | updated _ hplace ih => exact ih hplace
  | _ => trivial

/-! ## Levels that are needed for anything -/

/-- The levels between a production and the primary expression that it looks for at once. -/
def leastDepth : Production → Nat
  | .sequence _ | .expressions _ | .expression | .arguments | .argumentList | .array _
  | .elements => 4
  | .conditional | .operands _ => 3
  | .climb _ | .unary => 2
  | .unaryForm | .token | .primary | .construct _ | .updated .. => 1
  | _ => 0

/-- Every production has the levels down to a primary expression. -/
theorem Derives.leastDepth_le {depth : Nat} {p : Production} {c c' : Cursor} {v : p.Yield}
    (h : Derives depth p c v c') : leastDepth p ≤ depth := by
  induction h <;> simp only [leastDepth] at * <;> omega

end Grammar

end Estree
