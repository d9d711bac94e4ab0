import Estree.Proofs.Grammar.Starts
import Estree.Proofs.Transfer.Basic

/-!
# Transferred sequences and operators

One lemma for each production of sequences, conditionals and operators, as for member accesses and
calls. Operators look further than those: whether one goes on with an operand is decided by the
longest spelling that stands there, so what follows a transferred operand must not turn an operator
into a longer one, or a `?` into the mark of an access. `Text.Follows` is made to exclude that, and
`infixOperator?_transferred` says that an operator is found again with its operand behind it.

Before `**` it matters whether the left operand is a bare unary one. This is seen at its first
character, and so the new text has to begin with a unary operator exactly where the old one did
(`Enters`).
-/

namespace Estree

open Text View

namespace Grammar

open Template

variable {span? : Option Span} {depth : Nat} {c c₁ c₂ c' : Cursor} {e : Expr} {e? : Option Expr}
  {es : List Expr}

/-! ## Sequences and conditionals -/

/-- Expressions without parentheses around them. -/
theorem transfers_ungrouped (h : Transfers span? depth (.expressions true) c.pastBlanks es c') :
    Transfers span? depth (.sequence false) c (sequenceNode? none es) c' := by
  obtain ⟨m, hm, h⟩ := h
  refine ⟨_, hm.pastBlanks, ?_⟩
  rintro x rfl
  refine ⟨fun _ _ _ => trivial, ?_⟩
  rintro d d' q values hd hstand hfollows ⟨⟩
  obtain ⟨hblanks, hd⟩ := hm.enter hstand hd hfollows.beside
  obtain ⟨es', hes', hsame⟩ := (h x rfl).derives hd hblanks.stand hfollows (.expressions true)
  exact ⟨_, .ungrouped hes', hsame.sequenceNode? x.comparable rfl⟩

/-- Expressions in parentheses, of which there is at least one. -/
theorem transfers_grouped (hopen : c.pastBlanks.rest.head? = some '(')
    (h : Transfers span? depth (.expressions true) (c.pastBlanks.skip 1) es c')
    (hclose : c'.rest.head? = some ')') (hne : es ≠ []) :
    Transfers span? depth (.sequence true) c
      (sequenceNode? (some ⟨c.pastBlanks.position, (c'.skip 1).position⟩) es) (c'.skip 1) := by
  obtain ⟨m, hm, h⟩ := h
  have hlast : Covers span? c' (keep [')']) (c'.skip 1) :=
    .keep (Cursor.passes_skip (Cursor.rest_eq_cons_skip hclose))
  refine ⟨_, (hm.append hlast).char hopen, ?_⟩
  rintro x rfl
  constructor
  · rintro d d' hd hstand - hhead
    obtain ⟨hblanks, hopen', -⟩ := Covers.enterChar hstand hopen hd
    rwa [hblanks.pastBlanks_eq hhead (by decide)] at hopen'
  · rintro d d' q values hd hstand - ⟨⟩
    obtain ⟨hblanks, hopen', hd, hstand₁⟩ := Covers.enterChar hstand hopen hd
    obtain ⟨d₁, hd₁, hd, hstand₂⟩ := hm.split hstand₁ hd
    rw [new_keep] at hd
    have hclose' : d₁.rest.head? = some ')' := hd.head?_rest
    obtain rfl : d' = d₁.skip 1 := hd.eq_skip
    obtain ⟨es', hes', hsame⟩ := (h x rfl).derives hd₁ hstand₁
      (follows_char _ hclose hclose' (by decide)) (.expressions true)
    have hstand' : x.Stand (c'.skip 1) (d₁.skip 1) :=
      hstand₂.kept (Cursor.passes_skip (Cursor.rest_eq_cons_skip hclose)) hd
    exact ⟨_, .grouped hopen' hes' hclose' (hsame.ne_nil hne),
      hsame.sequenceNode? x.comparable (congrArg some (relocated_eq hblanks.stand hstand'))⟩

/-- Expressions end where no comma followed. -/
theorem transfers_lastExpression {isFirst : Bool} (h : Transfers span? depth .expression c e? c')
    (hfirst : e? = none → isFirst = true) (hcomma : c'.pastBlanks.rest.head? ≠ some ',') :
    Transfers span? depth (.expressions isFirst) c e?.toList c'.pastBlanks := by
  obtain ⟨m, hm, h⟩ := h
  refine ⟨_, hm.append (.keep c'.passes_blanks), ?_⟩
  rintro x rfl
  refine ⟨fun _ _ _ => trivial, ?_⟩
  rintro d d' q values hd hstand hfollows ⟨⟩
  obtain ⟨d₁, hd₁, hblanks, rfl, hfollows₁⟩ := hm.leave hstand hd hfollows
  obtain ⟨e?', he', hsame⟩ := (h x rfl).derives hd₁ hstand hfollows₁.untaken .expression
  have hfirst' : e?' = none → isFirst = true := by
    rintro rfl
    rcases hsame.eq_none_or with ⟨rfl, -⟩ | ⟨_, _, -, he, -⟩
    · exact hfirst rfl
    · cases he
  exact ⟨_, .lastExpression he' hfirst' (hfollows.head?_ne_comma hcomma), hsame.toList⟩

/-- Expressions go on behind a comma. -/
theorem transfers_moreExpressions {isFirst : Bool}
    (he : Transfers span? depth .expression c (some e) c₁)
    (hcomma : c₁.pastBlanks.rest.head? = some ',')
    (hes : Transfers span? depth (.expressions false) (c₁.pastBlanks.skip 1) es c') :
    Transfers span? depth (.expressions isFirst) c (e :: es) c' := by
  obtain ⟨m₁, hm₁, h₁⟩ := he
  obtain ⟨m₂, hm₂, h₂⟩ := hes
  refine ⟨_, hm₁.append (hm₂.char hcomma), ?_⟩
  rintro x rfl
  refine ⟨fun _ _ _ => trivial, ?_⟩
  rintro d d' q values hd hstand hfollows ⟨⟩
  obtain ⟨d₁, hd₁, hd, hstand₁⟩ := hm₁.split hstand hd
  obtain ⟨hblanks, hcomma', hd, hstand₂⟩ := Covers.enterChar hstand₁ hcomma hd
  obtain ⟨es', hes', hsames⟩ := (h₂ x rfl).derives hd hstand₂ hfollows (.expressions false)
  have hfollows₁ := hblanks.follows (follows_char false hcomma hcomma' (by decide))
  obtain ⟨e?', he', hsame?⟩ := (h₁ x rfl).derives hd₁ hstand hfollows₁ .expression
  obtain ⟨e', rfl, hsame⟩ := hsame?.exists_some
  exact ⟨_, .moreExpressions he' hcomma' hes', hsame.cons hsames⟩

/-- An expression is what is below it, one level up. -/
theorem transfers_expression (h : Transfers span? depth .conditional c e? c') :
    Transfers span? (depth + 1) .expression c e? c' := by
  obtain ⟨m, hm, h⟩ := h
  refine ⟨m, hm, ?_⟩
  rintro x rfl
  refine ⟨fun _ _ _ => trivial, ?_⟩
  rintro d d' q values hd hstand hfollows ⟨⟩
  obtain ⟨e?', he', hsame⟩ := (h x rfl).derives hd hstand hfollows .conditional
  exact ⟨e?', .expression he', hsame⟩

/-- Without a question mark there is no conditional. -/
theorem transfers_unconditional {operands? : Option Climbed}
    (h : Transfers span? depth (.operands 1) c operands? c')
    (hquestion : c'.pastBlanks.rest.head? ≠ some '?') :
    Transfers span? depth .conditional c (operands?.map (·.expr)) c'.pastBlanks := by
  obtain ⟨m, hm, h⟩ := h
  refine ⟨_, hm.append (.keep c'.passes_blanks), ?_⟩
  rintro x rfl
  refine ⟨fun _ _ _ => trivial, ?_⟩
  rintro d d' q values hd hstand hfollows ⟨⟩
  obtain ⟨d₁, hd₁, hblanks, rfl, hfollows₁⟩ := hm.leave hstand hd hfollows
  obtain ⟨operands?', hoperands', hsame⟩ := (h x rfl).derives hd₁ hstand hfollows₁ (.operands 1)
  exact ⟨_, .unconditional hoperands' (hfollows.head?_ne hquestion (by decide)), hsame.map_expr⟩

/-- A conditional has its question mark and its colon. -/
theorem transfers_conditional {test : Climbed} {consequent alternate : Expr}
    (htest : Transfers span? depth (.operands 1) c (some test) c₁)
    (hquestion : c₁.pastBlanks.rest.head? = some '?')
    (hconsequent : Transfers span? depth .expression (c₁.pastBlanks.skip 1) (some consequent) c₂)
    (hcolon : c₂.pastBlanks.rest.head? = some ':')
    (halternate : Transfers span? depth .expression (c₂.pastBlanks.skip 1) (some alternate) c') :
    Transfers span? depth .conditional c (some (.conditional
      ⟨test.expr.span.start, alternate.span.stop⟩ test.expr consequent alternate)) c' := by
  obtain ⟨m₁, hm₁, h₁⟩ := htest
  obtain ⟨m₂, hm₂, h₂⟩ := hconsequent
  obtain ⟨m₃, hm₃, h₃⟩ := halternate
  refine ⟨_, hm₁.append ((hm₂.append (hm₃.char hcolon)).char hquestion), ?_⟩
  rintro x rfl
  refine ⟨fun _ _ _ => trivial, ?_⟩
  rintro d d' q values hd hstand hfollows ⟨⟩
  obtain ⟨d₁, hd₁, hd, hstand₁⟩ := hm₁.split hstand hd
  obtain ⟨hblanks₁, hquestion', hd, hstand₂⟩ :=
    Covers.enterChar hstand₁ hquestion hd
  obtain ⟨d₂, hd₂, hd, hstand₃⟩ := hm₂.split hstand₂ hd
  obtain ⟨hblanks₂, hcolon', hd, hstand₄⟩ := Covers.enterChar hstand₃ hcolon hd
  obtain ⟨alternate?, halternate', hsame₃?⟩ := (h₃ x rfl).derives hd hstand₄ hfollows .expression
  obtain ⟨alternate', rfl, hsame₃⟩ := hsame₃?.exists_some
  have hfollows₂ := hblanks₂.follows (follows_char false hcolon hcolon' (by decide))
  obtain ⟨consequent?, hconsequent', hsame₂?⟩ :=
    (h₂ x rfl).derives hd₂ hstand₂ hfollows₂ .expression
  obtain ⟨consequent', rfl, hsame₂⟩ := hsame₂?.exists_some
  -- The question mark begins nothing else, as an operand comes after it.
  have hstarts : StartsOperand (d₁.pastBlanks.skip 1).pastBlanks.rest := hconsequent'.starts
  have hfollows₁ : Follows false c₁.rest d₁.rest := by
    refine hblanks₁.follows ?_
    rw [Cursor.rest_eq_cons_skip hquestion, Cursor.rest_eq_cons_skip hquestion']
    exact follows_question (Token.access?_question hstarts) (Token.infixOperator?_question hstarts)
  obtain ⟨test?, htest', hsame₁?⟩ := (h₁ x rfl).derives hd₁ hstand hfollows₁ (.operands 1)
  obtain ⟨test', rfl, hsame₁⟩ := hsame₁?.exists_some
  exact ⟨_, .conditional htest' hquestion' hconsequent' hcolon' halternate',
    (hsame₁.expr.conditional x.comparable hsame₂ hsame₃).some⟩

/-! ## Operators -/

/-- Operands are what is below them, one level up. -/
theorem transfers_operands {least : Nat} {climbed? : Option Climbed}
    (h : Transfers span? depth (.climb least) c climbed? c') :
    Transfers span? (depth + 1) (.operands least) c climbed? c' := by
  obtain ⟨m, hm, h⟩ := h
  refine ⟨m, hm, ?_⟩
  rintro x rfl
  refine ⟨fun _ _ _ => trivial, ?_⟩
  rintro d d' q values hd hstand hfollows ⟨⟩
  obtain ⟨climbed?', hclimbed', hsame⟩ := (h x rfl).derives hd hstand hfollows (.climb least)
  exact ⟨climbed?', .operands hclimbed', hsame⟩

/-- Where no operand began, none begins. -/
theorem transfers_noOperand {least : Nat} (h : Transfers span? depth .unary c.pastBlanks none c') :
    Transfers span? depth (.climb least) c none c' := by
  obtain ⟨m, hm, h⟩ := h
  refine ⟨_, hm.pastBlanks, ?_⟩
  rintro x rfl
  refine ⟨fun _ _ _ => trivial, ?_⟩
  rintro d d' q values hd hstand hfollows ⟨⟩
  obtain ⟨hblanks, hd⟩ := hm.enter hstand hd hfollows.beside
  obtain ⟨e?', he', hsame⟩ := (h x rfl).derives hd hblanks.stand hfollows .unary
  obtain rfl := hsame.eq_none
  exact ⟨none, .noOperand he', same_none⟩

/-- The first operand, and what goes on after it. -/
theorem transfers_climb {least : Nat} {left : Expr} {climbed : Climbed}
    (hleft : Transfers span? depth .unary c.pastBlanks (some left) c₁)
    (h : Transfers span? depth
      (.infixes least ⟨left, none⟩ (Token.unaryOperator? c.pastBlanks.rest).isSome) c₁ climbed c') :
    Transfers span? depth (.climb least) c (some climbed) c' := by
  obtain ⟨m₁, hm₁, h₁⟩ := hleft
  obtain ⟨m₂, hm₂, h₂⟩ := h
  refine ⟨_, (hm₁.append hm₂).pastBlanks, ?_⟩
  rintro x rfl
  refine ⟨fun _ _ _ => trivial, ?_⟩
  rintro d d' q values hd hstand hfollows ⟨⟩
  obtain ⟨hblanks, hd⟩ := (hm₁.append hm₂).enter hstand hd hfollows.beside
  obtain ⟨d₁, hd₁, hd, hstand₁⟩ := hm₁.split hblanks.stand hd
  have hfollows₁ : Follows false c₁.rest d₁.rest := (h₂ x rfl).enters hd hstand₁ hfollows
  have hbare : (Token.unaryOperator? d.pastBlanks.pastBlanks.rest).isSome =
      (Token.unaryOperator? c.pastBlanks.pastBlanks.rest).isSome :=
    (h₁ x rfl).enters hd₁ hblanks.stand hfollows₁
  rw [d.pastBlanks_pastBlanks, c.pastBlanks_pastBlanks] at hbare
  obtain ⟨left?, hleft', hsame₁?⟩ := (h₁ x rfl).derives hd₁ hblanks.stand hfollows₁ .unary
  obtain ⟨left', rfl, hsame₁⟩ := hsame₁?.exists_some
  obtain ⟨climbed', hclimbed', hsame⟩ := (h₂ x rfl).derives hd hstand₁ hfollows
    (.infixes least _ (same_climbed hsame₁))
  rw [← hbare] at hclimbed'
  exact ⟨_, .climb hleft' hclimbed', hsame.some⟩

/-- No operator goes on, or it binds too loosely. -/
theorem transfers_noInfix {least : Nat} {left : Climbed} {isBareUnary : Bool}
    (h : ∀ operator ∈ Token.infixOperator? c.pastBlanks.rest, operator.precedence < least) :
    Transfers span? depth (.infixes least left isBareUnary) c left c.pastBlanks := by
  refine ⟨_, .keep c.passes_blanks, ?_⟩
  rintro x rfl
  have hblanks : ∀ {d d' : Cursor}, d.Passes ((keep c.blanks).new x.text) d' → x.Stand c d →
      Follows false c.pastBlanks.rest d'.rest → x.Blanks c d ∧ d' = d.pastBlanks := by
    intro d d' hd hstand hfollows
    rw [new_keep] at hd
    exact Transfer.Blanks.of_passes hstand hd hfollows.beside
  constructor
  · intro d d' hd hstand hfollows
    obtain ⟨hblanks, rfl⟩ := hblanks hd hstand hfollows
    exact hblanks.follows hfollows
  · rintro d d' q values hd hstand hfollows ⟨⟩
    rename_i left' hleft
    obtain ⟨hblanks, rfl⟩ := hblanks hd hstand hfollows
    refine ⟨left', .noInfix fun operator hoperator => h operator ?_, hleft⟩
    have hinfixed := hfollows.infixed operator
    rw [← Cursor.pastBlanks_rest, ← Cursor.pastBlanks_rest, c.pastBlanks_pastBlanks,
      d.pastBlanks_pastBlanks] at hinfixed
    exact hinfixed hoperator

/-- An infix operator is found in the new text, as an operand comes after it. -/
theorem infixOperator?_transferred {operator : InfixOperator} {d d₁ : Cursor} {depth : Nat}
    {right : Climbed} {least : Nat}
    (hop : Token.infixOperator? c.pastBlanks.rest = some operator)
    (hrest : d.pastBlanks.rest =
      operator.text.toList ++ (d.pastBlanks.skip operator.text.length).rest)
    (hbeside : Beside (c.pastBlanks.skip operator.text.length).rest
      (d.pastBlanks.skip operator.text.length).rest)
    (hright : Derives depth (.operands least) (d.pastBlanks.skip operator.text.length) (some right)
      d₁) :
    Token.infixOperator? d.pastBlanks.rest = some operator := by
  obtain ⟨rest, hold⟩ := Token.infixOperator?_eq_some hop
  obtain rfl : (c.pastBlanks.skip operator.text.length).rest = rest := by
    rw [← String.length_toList]
    exact Cursor.skip_length_rest hold
  rw [hold] at hop
  have hstarts : StartsOperand (d.pastBlanks.skip operator.text.length).pastBlanks.rest :=
    hright.starts
  rw [hrest]
  refine Token.infixOperator?_beside hop hbeside ?_ hstarts.not_mem_infixTails
  intro hnil
  refine hstarts.ne_nil ?_
  rw [Cursor.pastBlanks_rest, hnil]
  rfl

/-- An operator goes on with its right operand, and more may go on after it. -/
theorem transfers_joined {least : Nat} {left right climbed : Climbed} {isBareUnary : Bool}
    {operator : InfixOperator} (hop : Token.infixOperator? c.pastBlanks.rest = some operator)
    (hleast : least ≤ operator.precedence) (hbare : ¬(isBareUnary = true ∧ operator = .binary .exp))
    (hright : Transfers span? depth (.operands operator.rightPrecedence)
      (c.pastBlanks.skip operator.text.length) (some right) c₁)
    (hallows : operator.Allows left right)
    (h : Transfers span? depth
      (.infixes least ⟨operator.join left.expr right.expr, operator.logical?⟩ false) c₁ climbed
        c') :
    Transfers span? depth (.infixes least left isBareUnary) c climbed c' := by
  obtain ⟨m₁, hm₁, h₁⟩ := hright
  obtain ⟨m₂, hm₂, h₂⟩ := h
  obtain ⟨rest, hrest⟩ := Token.infixOperator?_eq_some hop
  have hlength : operator.text.toList.length = operator.text.length := String.length_toList
  refine ⟨_, (hm₁.append hm₂).token hrest hlength, ?_⟩
  rintro x rfl
  have hne : operator.text.toList ≠ [] := by
    obtain ⟨y, ys, htext⟩ := Token.exists_cons_of_infixOperator operator
    rw [htext]
    exact List.cons_ne_nil y ys
  -- Both halves need the same of the new text: that the operator is there, and what is left behind
  -- it.
  have hparts : ∀ {d d' : Cursor},
      d.Passes ((keep (c.blanks ++ operator.text.toList) ++ (m₁ ++ m₂)).new x.text) d' →
      x.Stand c d → Follows false c'.rest d'.rest → x.Blanks c d ∧
        Token.infixOperator? d.pastBlanks.rest = some operator ∧
        ∃ d₁ right', d₁.Passes (m₂.new x.text) d' ∧ x.Stand c₁ d₁ ∧
          Derives (x.levels + depth) (.operands operator.rightPrecedence)
            (d.pastBlanks.skip operator.text.length) (some right') d₁ ∧
          x.left.Same x.right right right' := by
    intro d d' hd hstand hfollows
    obtain ⟨hblanks, hrest', hd, hstand₁⟩ :=
      Covers.enterToken hstand hrest hlength hne hd
    obtain ⟨d₁, hd₁, hd, hstand₂⟩ := hm₁.split hstand₁ hd
    have hfollows₁ : Follows false c₁.rest d₁.rest := (h₂ x rfl).enters hd hstand₂ hfollows
    obtain ⟨right?, hright', hsame?⟩ :=
      (h₁ x rfl).derives hd₁ hstand₁ hfollows₁ (.operands operator.rightPrecedence)
    obtain ⟨right', rfl, hsame⟩ := hsame?.exists_some
    have hop' := infixOperator?_transferred hop hrest' (hm₁.beside hd₁ hfollows₁.beside) hright'
    exact ⟨hblanks, hop', d₁, right', hd, hstand₂, hright', hsame⟩
  constructor
  · intro d d' hd hstand hfollows
    obtain ⟨hblanks, hop', -⟩ := hparts hd hstand hfollows
    exact hblanks.follows (follows_infixOperator hop hop')
  · rintro d d' q values hd hstand hfollows ⟨⟩
    rename_i left' hleft
    obtain ⟨-, hop', d₁, right', hd, hstand₁, hright', hsame⟩ := hparts hd hstand hfollows
    have hjoined : x.left.Same x.right
        (⟨operator.join left.expr right.expr, operator.logical?⟩ : Climbed)
        ⟨operator.join left'.expr right'.expr, operator.logical?⟩ :=
      same_climbed (hleft.expr.join x.comparable operator hsame.expr)
    obtain ⟨climbed', hclimbed', hsame'⟩ := (h₂ x rfl).derives hd hstand₁ hfollows
      (.infixes least false hjoined)
    exact ⟨_, .joined hop' hleast hbare hright' (hleft.allows hsame hallows) hclimbed', hsame'⟩

/-- An operand is what is below it, one level up. -/
theorem transfers_unary (h : Transfers span? depth .unaryForm c e? c') :
    Transfers span? (depth + 1) .unary c e? c' := by
  obtain ⟨m, hm, h⟩ := h
  refine ⟨m, hm, ?_⟩
  rintro x rfl
  refine ⟨(h x rfl).enters, ?_⟩
  rintro d d' q values hd hstand hfollows ⟨⟩
  obtain ⟨e?', he', hsame⟩ := (h x rfl).derives hd hstand hfollows .unaryForm
  exact ⟨e?', .unary he', hsame⟩

/-- A unary operator is found before its operand. -/
theorem transfers_unaryOperator {operator : UnaryOperator} {argument : Expr}
    (hop : Token.unaryOperator? c.pastBlanks.rest = some operator)
    (h : Transfers span? depth .unary (c.pastBlanks.skip operator.text.length) (some argument)
      c') :
    Transfers span? depth .unaryForm c
      (some (.unary ⟨c.pastBlanks.position, argument.span.stop⟩ operator true argument)) c' := by
  obtain ⟨m, hm, h⟩ := h
  obtain ⟨rest, hrest⟩ := Token.unaryOperator?_eq_some hop
  have hlength : operator.text.toList.length = operator.text.length := String.length_toList
  refine ⟨_, hm.token hrest hlength, ?_⟩
  rintro x rfl
  have hne : operator.text.toList ≠ [] := by
    obtain ⟨y, ys, htext⟩ := Token.exists_cons_of_unaryOperator operator
    rw [htext]
    exact List.cons_ne_nil y ys
  -- As for infix operators, both halves need the operator and what is left behind it.
  have hparts : ∀ {d d' : Cursor},
      d.Passes ((keep (c.blanks ++ operator.text.toList) ++ m).new x.text) d' →
      x.Stand c d → Follows false c'.rest d'.rest → x.Blanks c d ∧
        Token.unaryOperator? d.pastBlanks.rest = some operator ∧
        (d.pastBlanks.skip operator.text.length).Passes (m.new x.text) d' ∧
        x.Stand (c.pastBlanks.skip operator.text.length)
          (d.pastBlanks.skip operator.text.length) := by
    intro d d' hd hstand hfollows
    obtain ⟨hblanks, hrest', hd, hstand₁⟩ := Covers.enterToken hstand hrest hlength hne hd
    refine ⟨hblanks, ?_, hd, hstand₁⟩
    obtain rfl : (c.pastBlanks.skip operator.text.length).rest = rest := by
      rw [← hlength]
      exact Cursor.skip_length_rest hrest
    rw [hrest']
    rw [hrest] at hop
    exact Token.unaryOperator?_beside hop (hm.beside hd hfollows.beside)
  constructor
  · intro d d' hd hstand hfollows
    obtain ⟨-, hop', -⟩ := hparts hd hstand hfollows
    show (Token.unaryOperator? d.pastBlanks.rest).isSome = _
    rw [hop, hop']
  · rintro d d' q values hd hstand hfollows ⟨⟩
    obtain ⟨hblanks, hop', hd, hstand₁⟩ := hparts hd hstand hfollows
    obtain ⟨argument?, hargument', hsame?⟩ := (h x rfl).derives hd hstand₁ hfollows .unary
    obtain ⟨argument', rfl, hsame⟩ := hsame?.exists_some
    exact ⟨_, .unaryOperator hop' hargument',
      (hsame.unary x.comparable operator hblanks.stand).some⟩

/-- Where no unary operator stood, none stands before the token. -/
theorem transfers_noUnaryOperator (hop : Token.unaryOperator? c.pastBlanks.rest = none)
    (h : Transfers span? depth .token c.pastBlanks e? c') :
    Transfers span? depth .unaryForm c e? c' := by
  obtain ⟨m, hm, h⟩ := h
  refine ⟨_, hm.pastBlanks, ?_⟩
  rintro x rfl
  have hparts : ∀ {d d' : Cursor}, d.Passes ((keep c.blanks ++ m).new x.text) d' → x.Stand c d →
      Follows false c'.rest d'.rest → Token.unaryOperator? d.pastBlanks.rest = none ∧
        d.pastBlanks.Passes (m.new x.text) d' ∧ x.Stand c.pastBlanks d.pastBlanks := by
    intro d d' hd hstand hfollows
    obtain ⟨hblanks, hd⟩ := hm.enter hstand hd hfollows.beside
    have henters : Enters .token c.pastBlanks d.pastBlanks :=
      (h x rfl).enters hd hblanks.stand hfollows
    rw [Enters, c.pastBlanks_pastBlanks, d.pastBlanks_pastBlanks] at henters
    exact ⟨henters hop, hd, hblanks.stand⟩
  constructor
  · intro d d' hd hstand hfollows
    show (Token.unaryOperator? d.pastBlanks.rest).isSome = _
    rw [hop, (hparts hd hstand hfollows).1]
  · rintro d d' q values hd hstand hfollows ⟨⟩
    obtain ⟨hop', hd, hstand⟩ := hparts hd hstand hfollows
    obtain ⟨e?', he', hsame⟩ := (h x rfl).derives hd hstand hfollows .token
    exact ⟨e?', .noUnaryOperator hop' he', hsame⟩

end Grammar

end Estree
