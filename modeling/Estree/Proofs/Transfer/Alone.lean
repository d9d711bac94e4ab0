import Mathlib.Data.List.TakeWhile
import Estree.Proofs.Transfer.Groups
import Estree.Proofs.Transfer.Prefixes

/-!
# Readings to the end of a text

Whatever production has read an operand or an expression, if the text ends behind it, the text is
read as that tree (`ReadsToEnd`): nothing goes on with it, so it is a sequence of one expression.
The levels that this takes are those of the production and at most three more. Only where a unary
operator may not stand, in a callee and in what is updated, a word is read that is an operator
elsewhere.

The lemmas climb the grammar: a primary expression at the end is a token there, a token an operand,
an operand a row of operands, and so on to a whole sequence. Each step of this needs that something
does not stand behind what has been read, and at the end nothing stands there (`Cursor.AtEnd`).
-/

namespace Estree

open Text

/-- Nothing but blanks is left of the text. -/
def Cursor.AtEnd (c : Cursor) : Prop :=
  c.pastBlanks.rest = []

namespace Cursor.AtEnd

variable {c : Cursor}

/-- Where nothing is left, the text ends. -/
theorem of_rest (h : c.rest = []) : c.AtEnd := by
  rw [Cursor.AtEnd, Cursor.pastBlanks_rest, h]
  rfl

/-- Past the last blanks the text ends. -/
theorem pastBlanks (h : c.AtEnd) : c.pastBlanks.AtEnd := by
  rwa [Cursor.AtEnd, c.pastBlanks_pastBlanks]

/-- At the end no character stands. -/
theorem head?_ne (h : c.AtEnd) (x : Char) : c.pastBlanks.rest.head? ≠ some x := by
  rw [h]
  exact nofun

/-- At the end no link goes on. -/
theorem hasNoLink (h : c.AtEnd) : c.HasNoLink where
  access := by
    rw [h]
    rfl
  paren := h.head?_ne '('

/-- At the end no operator goes on. -/
theorem infixOperator?_eq_none (h : c.AtEnd) : Token.infixOperator? c.pastBlanks.rest = none := by
  rw [h]
  rfl

/-- At the end no update stands. -/
theorem updateOperator?_eq_none (h : c.AtEnd) :
    Token.updateOperator? (c.skipBlanks false).rest = none := by
  refine Token.updateOperator?_eq_none fun x hx => ?_
  -- What is left is blank, and so is its first character.
  have hnil : (c.skipBlanks false).rest.dropWhile isBlank = [] :=
    c.pastBlanks_skipBlanks_rest.trans h
  have hblank := List.dropWhile_eq_nil_iff.1 hnil x (List.mem_of_mem_head? hx)
  constructor <;>
  · rintro rfl
    revert hblank
    decide

/-- Past the blanks of the last line the text ends. -/
theorem skipBlanks (h : c.AtEnd) : (c.skipBlanks false).AtEnd :=
  c.pastBlanks_skipBlanks_rest.trans h

end Cursor.AtEnd

/-- Where an operand begins, no blanks do. -/
theorem Text.StartsOperand.pastBlanks_eq {c : Cursor} (h : StartsOperand c.rest) :
    c.pastBlanks = c := by
  obtain ⟨x, hx, hkind⟩ := h
  obtain ⟨xs, hxs⟩ := List.head?_eq_some_iff.1 hx
  refine Cursor.pastBlanks_of_cons hxs (Bool.eq_false_iff.2 fun hblank => ?_)
  rcases hkind with hword | hmem | hnumber
  · have hpart := isIdentifierPart_of_start hword
    rw [isIdentifierPart_of_isBlank hblank] at hpart
    cases hpart
  · have hall : ['(', '[', '+', '-', '!', '~'].all (fun y => !isBlank y) = true := by decide
    have hno := List.all_eq_true.1 hall x hmem
    rw [hblank] at hno
    cases hno
  · obtain ⟨y, hy, hdigit⟩ := head?_of_numberStart hnumber
    obtain rfl := Option.some.inj (hx.symm.trans hy)
    rcases hdigit with hdigit | rfl
    · have hpart := isIdentifierPart_of_isDigit hdigit
      rw [isIdentifierPart_of_isBlank hblank] at hpart
      cases hpart
    · revert hblank
      decide

namespace Grammar

/-- From the cursor to its end, the text is read as the tree, with so many levels. -/
def ReadsToEndWithin (depth : Nat) (c : Cursor) (e : Expr) : Prop :=
  ∃ c', Derives depth (.sequence false) c (some e) c' ∧ c'.AtEnd

/-- From the cursor to its end, the text is read as the tree. -/
def ReadsToEnd (c : Cursor) (e : Expr) : Prop :=
  ∃ depth c', Derives depth (.sequence false) c (some e) c' ∧ c'.AtEnd

/-- What is read within some levels is read. -/
theorem ReadsToEndWithin.readsToEnd {depth : Nat} {c : Cursor} {e : Expr}
    (h : ReadsToEndWithin depth c e) : ReadsToEnd c e :=
  ⟨depth, h⟩

variable {depth : Nat} {P : Expr → Prop} {c c' c₁ : Cursor} {e primary : Expr} {es : List Expr}

/-- Expressions to the end, as the node around them. -/
theorem readsToEnd_expressions (h : Derives depth (.expressions true) c es c')
    (hnode : sequenceNode? none es = some e) (hend : c'.AtEnd) : ReadsToEndWithin depth c e :=
  ⟨c', hnode ▸ .ungrouped ((derives_pastBlanks_iff (p := .expressions true) trivial).2 h), hend⟩

/-- An expression to the end is a sequence of one. -/
theorem readsToEnd_expression (h : Derives depth .expression c (some e) c') (hend : c'.AtEnd) :
    ReadsToEndWithin depth c e :=
  readsToEnd_expressions (.lastExpression h nofun (hend.head?_ne ',')) rfl hend.pastBlanks

/-- An operand that has grown up to the end of the text. -/
theorem readsToEnd_joined {left : Expr} {w : Cursor × Climbed × Bool}
    (hleft : Derives depth .unary c.pastBlanks (some left) c₁)
    (hrun : Joined P depth (c₁, ⟨left, none⟩, (Token.unaryOperator? c.pastBlanks.rest).isSome) w)
    (hend : w.1.AtEnd) : ReadsToEndWithin (depth + 2) c w.2.1.expr := by
  have hinfixes := hrun.derives fun operator hoperator => by
    rw [hend.infixOperator?_eq_none] at hoperator
    cases hoperator
  have hoperands := Derives.operands (.climb hleft hinfixes)
  have hconditional := Derives.unconditional hoperands (hend.pastBlanks.head?_ne '?')
  exact readsToEnd_expression (.expression hconditional) hend.pastBlanks.pastBlanks

/-- An operand to the end is an expression. -/
theorem readsToEnd_unary (h : Derives depth .unary c (some e) c') (hend : c'.AtEnd) :
    ReadsToEndWithin (depth + 2) c e :=
  @readsToEnd_joined depth (fun _ => True) c c' e (c', ⟨e, none⟩, _)
    ((derives_pastBlanks_iff (p := .unary) trivial).2 h) .refl hend

/-- So it is one level below. -/
theorem readsToEnd_unaryForm (h : Derives depth .unaryForm c (some e) c') (hend : c'.AtEnd) :
    ReadsToEndWithin (depth + 3) c e :=
  readsToEnd_unary (.unary h) hend

/-- A token to the end is an operand if no operator is read where it begins. -/
theorem readsToEnd_token (h : Derives depth .token c (some e) c') (hend : c'.AtEnd)
    (hop : Token.unaryOperator? c.pastBlanks.rest = none) : ReadsToEndWithin (depth + 3) c e :=
  readsToEnd_unaryForm
    (.noUnaryOperator hop ((derives_pastBlanks_iff (p := .token) trivial).2 h)) hend

/-- A run that has grown up to the end of the text. -/
theorem readsToEnd_linked {t : Cursor × Links}
    (hprimary : Derives depth .primary c.pastBlanks (some primary) c₁)
    (hrun : Linked P depth (c₁, ⟨primary, false⟩) t) (hend : t.1.AtEnd)
    (hop : Token.unaryOperator? c.pastBlanks.rest = none) :
    ReadsToEndWithin (depth + 3) c t.2.finish :=
  readsToEnd_token (.token hprimary (hrun.derives hend.hasNoLink) hend.updateOperator?_eq_none)
    hend.skipBlanks hop

/-- A primary expression to the end is a token on the same condition. -/
theorem readsToEnd_primary (h : Derives depth .primary c (some e) c') (hend : c'.AtEnd)
    (hop : Token.unaryOperator? c.rest = none) : ReadsToEndWithin (depth + 3) c e := by
  have hstarts : StartsOperand c.rest := h.starts
  have hpast := hstarts.pastBlanks_eq
  rw [← hpast] at h hop
  exact @readsToEnd_linked depth (fun _ => True) c c' e (c', ⟨e, false⟩) h .refl hend hop

end Grammar

end Estree
