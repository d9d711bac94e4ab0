import Estree.Proofs.Expr.Unplaced
import Estree.Proofs.Grammar.Shape
import Estree.Proofs.Source.Follow
import Estree.Proofs.Source.Links

/-!
# Texts that are read as a tree

What it means that a text is read as a tree, whatever comes before it and after it. The grammar has
several places for an expression, and a text is read differently at each:

* `ReadsRun`: as a run of links, which may go on with another one;
* `ReadsToken`, `ReadsUnary`: as an operand, without and with unary operators before it;
* `ReadsClimb`: as operands joined by operators, up to one that binds too loosely;
* `ReadsExpression`, `ReadsExpressions`: as an expression, and as expressions with commas.

All have much the same form (`Arrives`): wherever the text stands and something follows that may
follow at this place, the grammar derives a tree that is the same up to spans, and comes to a cursor
with just what follows ahead of it. Nothing is said of positions, so that texts can be put together.

A text that is read at one place is read at the next wider one, from a run up to expressions with
commas (`readsToken_of_run` to `readsExpressions_of_expression`), and each step takes the levels of
the productions that it goes through. In parentheses the text is read at the narrowest place again
(`readsRun_group`). So parentheses are what a text needs that is read at a wider place only.
-/

open Estree.Expr

namespace Estree

open Grammar Token

namespace Source

/-! ## Places -/

/-- A reading yields the tree and goes on with the text that follows, apart from blanks. -/
def Arrives (derives : Expr → Cursor → Prop) (e : Expr) (rest : List Char) : Prop :=
  ∃ e' c', derives e' c' ∧ e'.SameAs e ∧ c'.pastBlanks.rest = rest.dropWhile Text.isBlank

/-- What a run may be followed by: nothing that its last word or number would go on with. -/
structure EndsRun (isDigits : Bool) (rest : List Char) : Prop where
  word : ∀ x ∈ rest.head?, Text.isIdentifierPart x = false
  point : isDigits = true → rest.head? ≠ some '.'

/-- The text is read as a run that may go on, after a `new` as well unless it has a call. -/
def ReadsRun (depth : Nat) (text : List Char) (e : Expr) (isDigits hasCall : Bool) : Prop :=
  ∀ c rest, c.rest = text ++ rest → EndsRun isDigits rest →
    ∃ run c₂, RunsTo depth c run hasCall c₂ ∧ run.node.SameAs e ∧
      run.hasOptional = e.hasOptionalLink ∧ c₂.rest = rest

/-- No unary operator is read at the start of the text. -/
def OpensNoOperator (text : List Char) : Prop :=
  ∀ rest : List Char, (∀ x ∈ rest.head?, Text.isIdentifierPart x = false) →
    unaryOperator? (text ++ rest) = none

def ReadsToken (depth : Nat) (text : List Char) (e : Expr) : Prop :=
  ∀ c rest, c.pastBlanks.rest = text ++ rest → Follows rest →
    Arrives (fun e' c' => Derives depth .token c (some e') c') e rest

/-- The text is read as an operand, with unary operators or not. -/
def ReadsUnary (depth : Nat) (text : List Char) (e : Expr) (isUnary : Bool) : Prop :=
  ∀ c rest, c.pastBlanks.rest = text ++ rest → Follows rest →
    (unaryOperator? (text ++ rest)).isSome = isUnary ∧
      Arrives (fun e' c' => Derives depth .unary c (some e') c') e rest

/-- The text is read as operands joined so far, where an operator that binds less tightly than
`bound?` may follow. -/
def ReadsClimb (depth : Nat) (text : List Char) (e : Expr) (logical? : Option LogicalOperator)
    (isUnary : Bool) (bound? : Option Nat) (least : Nat) : Prop :=
  ∀ c rest, c.pastBlanks.rest = text ++ rest → Follows rest →
    (∀ bound ∈ bound?, ∀ operator ∈ infixOperator? (rest.dropWhile Text.isBlank),
      operator.precedence < bound) →
    Arrives (fun e' c' => ∀ {climbed : Climbed} {c'' : Cursor},
      Derives depth (.infixes least ⟨e', logical?⟩ isUnary) c' climbed c'' →
      Derives depth (.climb least) c (some climbed) c'') e rest

def ReadsExpression (depth : Nat) (text : List Char) (e : Expr) : Prop :=
  ∀ c rest, c.pastBlanks.rest = text ++ rest → FollowsExpression rest →
    Arrives (fun e' c' => Derives depth .expression c (some e') c') e rest

/-- The text is read as expressions with commas that make up the tree. -/
def ReadsExpressions (depth : Nat) (text : List Char) (e : Expr) : Prop :=
  ∀ c rest, c.pastBlanks.rest = text ++ rest → Closes rest →
    ∃ es c', Derives depth (.expressions true) c es c' ∧ c'.rest = rest ∧
      ∀ grouped? : Option Span, ∃ e', sequenceNode? grouped? es = some e' ∧ e'.SameAs e

variable {depth : Nat} {text : List Char} {e : Expr} {isDigits hasCall isUnary : Bool}

/-! ## Blanks -/

/-- Blanks on the line are skipped first; what is left of the blanks is skipped then. -/
theorem pastBlanks_rest_of_inline {c : Cursor} {rest : List Char}
    (h : c.rest = rest.dropWhile Text.isInlineBlank) :
    c.pastBlanks.rest = rest.dropWhile Text.isBlank := by
  rw [Cursor.pastBlanks_rest, h, Text.dropWhile_inlineBlank]

/-- At the start of a text nothing is passed. -/
theorem Starts.pastBlanks_rest {c : Cursor} {rest : List Char} (h : Starts text)
    (hc : c.rest = text ++ rest) : c.pastBlanks.rest = text ++ rest := by
  rw [Cursor.pastBlanks_rest, hc, h.dropWhile_eq]

/-- A space before a text is skipped, and no more. -/
theorem Starts.pastBlanks_rest_space {c : Cursor} {rest : List Char} (h : Starts text)
    (hc : c.rest = ' ' :: (text ++ rest)) : c.pastBlanks.rest = text ++ rest := by
  rw [Cursor.pastBlanks_rest, hc, h.dropWhile_space]

theorem pastBlanks_pastBlanks_rest {c : Cursor} {xs : List Char} (h : c.pastBlanks.rest = xs) :
    c.pastBlanks.pastBlanks.rest = xs := by
  rw [c.pastBlanks_pastBlanks, h]

/-- What may follow an operand ends a run. -/
theorem Follows.endsRun {rest : List Char} (h : Follows rest) : EndsRun isDigits rest where
  word x hx := (h.not_isIdentifierPart x hx).1
  point _ hpoint := (h.not_isIdentifierPart '.' hpoint).2 rfl

/-! ## From a run to an operand -/

/-- A run that nothing goes on with is a token. -/
theorem derives_token {c c₂ : Cursor} {run : Links} {rest : List Char}
    (hruns : RunsTo depth c.pastBlanks run hasCall c₂)
    (hc₂ : c₂.rest.dropWhile Text.isInlineBlank = rest.dropWhile Text.isInlineBlank)
    (hrest : Follows rest) :
    ∃ c', Derives depth .token c (some run.finish) c' ∧
      c'.rest = rest.dropWhile Text.isInlineBlank := by
  have hinline : (c₂.skipBlanks false).rest = rest.dropWhile Text.isInlineBlank := hc₂
  have hblanks : c₂.pastBlanks.rest = rest.dropWhile Text.isBlank := by
    rw [Cursor.pastBlanks_rest, ← Text.dropWhile_inlineBlank, hc₂, Text.dropWhile_inlineBlank]
  refine ⟨_, hruns.token ?_ ?_ ?_, hinline⟩
  · rw [hblanks]
    exact hrest.access?_eq_none
  · rw [hblanks]
    exact hrest.head?_ne_paren
  · rw [hinline]
    exact hrest.updateOperator?_eq_none

/-- A run is a token as a whole, as a chain if it has an optional link. -/
theorem arrives_finish {c : Cursor} {rest : List Char}
    (hrun : ReadsRun depth text e isDigits hasCall)
    (hc : c.pastBlanks.rest = text ++ rest) (hrest : Follows rest) :
    ∃ node c', Derives depth .token c (some (Links.finish ⟨node, e.hasOptionalLink⟩)) c' ∧
      node.SameAs e ∧ c'.rest = rest.dropWhile Text.isInlineBlank := by
  obtain ⟨⟨node, _⟩, c₂, hruns, hsame, rfl, hc₂⟩ := hrun c.pastBlanks rest hc hrest.endsRun
  obtain ⟨c', hderives, hc'⟩ := derives_token hruns (by rw [hc₂]) hrest
  exact ⟨node, c', hderives, hsame, hc'⟩

/-- A run without an optional link is an operand. -/
theorem readsToken_of_run (hrun : ReadsRun depth text e isDigits hasCall)
    (hspine : e.hasOptionalLink = false) : ReadsToken depth text e := by
  intro c rest hc hrest
  obtain ⟨node, c', hderives, hsame, hc'⟩ := arrives_finish hrun hc hrest
  rw [hspine] at hderives
  exact ⟨node, c', hderives, hsame, pastBlanks_rest_of_inline hc'⟩

/-- A run with one is the operand with a chain around it. -/
theorem readsToken_chain {span : Span} (hrun : ReadsRun depth text e isDigits hasCall)
    (hspine : e.hasOptionalLink = true) : ReadsToken depth text (.chain span e) := by
  intro c rest hc hrest
  obtain ⟨node, c', hderives, hsame, hc'⟩ := arrives_finish hrun hc hrest
  rw [hspine] at hderives
  have hchain : (Expr.chain node.span node).SameAs (.chain span e) := by
    rw [SameAs, unplaced, unplaced, hsame]
  exact ⟨_, c', hderives, hchain, pastBlanks_rest_of_inline hc'⟩

/-- An operand that begins with no unary operator is one of those that may have some. -/
theorem readsUnary_of_token (htoken : ReadsToken depth text e) (hopens : OpensNoOperator text) :
    ReadsUnary (depth + 1) text e false := by
  intro c rest hc hrest
  have hnone : unaryOperator? (text ++ rest) = none :=
    hopens rest fun x hx => (hrest.not_isIdentifierPart x hx).1
  obtain ⟨e', c', hderives, hsame, hc'⟩ :=
    htoken c.pastBlanks rest (pastBlanks_pastBlanks_rest hc) hrest
  refine ⟨by rw [hnone]; rfl, e', c', .unary (.noUnaryOperator ?_ hderives), hsame, hc'⟩
  rw [hc, hnone]

/-! ## From an operand to an expression -/

/-- An operand on its own has no operators joined yet, whatever the least precedence. -/
theorem readsClimb_of_unary {least : Nat} (hunary : ReadsUnary depth text e isUnary) :
    ReadsClimb depth text e none isUnary none least := by
  intro c rest hc hrest _
  obtain ⟨hisUnary, e', c', hderives, hsame, hc'⟩ :=
    hunary c.pastBlanks rest (pastBlanks_pastBlanks_rest hc) hrest
  refine ⟨e', c', fun hinfixes => .climb hderives ?_, hsame, hc'⟩
  rwa [hc, hisUnary]

/-- Only the tree apart from its spans matters. -/
theorem ReadsClimb.of_sameAs {e₁ : Expr} {logical? : Option LogicalOperator} {bound? : Option Nat}
    {least : Nat} (h : ReadsClimb depth text e logical? isUnary bound? least)
    (hsame : e.SameAs e₁) :
    ReadsClimb depth text e₁ logical? isUnary bound? least := by
  intro c rest hc hrest hbound
  obtain ⟨e', c', hgoes, hsame', hc'⟩ := h c rest hc hrest hbound
  exact ⟨e', c', hgoes, hsame'.trans hsame, hc'⟩

/-- Operands that no operator goes on with. -/
theorem derives_operands {logical? : Option LogicalOperator} {bound? : Option Nat} {least : Nat}
    {c : Cursor} {rest : List Char} (hclimb : ReadsClimb depth text e logical? isUnary bound? least)
    (hc : c.pastBlanks.rest = text ++ rest) (hrest : Follows rest)
    (hbound : ∀ bound ∈ bound?, ∀ operator ∈ infixOperator? (rest.dropWhile Text.isBlank),
      operator.precedence < bound)
    (hleast : ∀ operator ∈ infixOperator? (rest.dropWhile Text.isBlank),
      operator.precedence < least) :
    ∃ e' c', Derives (depth + 1) (.operands least) c (some ⟨e', logical?⟩) c' ∧ e'.SameAs e ∧
      c'.rest = rest.dropWhile Text.isBlank := by
  obtain ⟨e', c', hgoes, hsame, hc'⟩ := hclimb c rest hc hrest hbound
  refine ⟨e', c'.pastBlanks, .operands (hgoes (.noInfix ?_)), hsame, hc'⟩
  rwa [hc']

/-- What is climbed from the least precedence of all is an expression, if no `?` follows. -/
theorem readsExpression_of_climb {logical? : Option LogicalOperator} {bound? : Option Nat}
    (hclimb : ReadsClimb depth text e logical? isUnary bound? 1) :
    ReadsExpression (depth + 2) text e := by
  intro c rest hc hrest
  have hnone := hrest.infixOperator?_eq_none
  obtain ⟨e', c', hderives, hsame, hc'⟩ :=
    derives_operands hclimb hc hrest.follows (by simp [hnone]) (by simp [hnone])
  have hblanks : c'.pastBlanks.rest = rest.dropWhile Text.isBlank := by
    rw [Cursor.pastBlanks_rest, hc', Text.dropWhile_dropWhile]
  refine ⟨e', c'.pastBlanks, .expression (.unconditional hderives ?_), hsame,
    pastBlanks_pastBlanks_rest hblanks⟩
  rw [hblanks]
  exact hrest.head?_ne_question

/-- One expression is a sequence without commas. -/
theorem readsExpressions_of_expression (h : ReadsExpression depth text e) :
    ReadsExpressions depth text e := by
  intro c rest hc hrest
  obtain ⟨e', c', hderives, hsame, hc'⟩ := h c rest hc hrest.followsExpression
  rw [hrest.dropWhile_eq] at hc'
  refine ⟨[e'], c'.pastBlanks, .lastExpression hderives nofun ?_, hc', fun _ => ⟨e', rfl, hsame⟩⟩
  rw [hc']
  exact hrest.head?_ne_comma

/-- A whole text, or what is between brackets. -/
theorem derives_sequence {c : Cursor} {rest : List Char} (h : ReadsExpressions depth text e)
    (hc : c.pastBlanks.rest = text ++ rest) (hrest : Closes rest) :
    ∃ e' c', Derives depth (.sequence false) c (some e') c' ∧ e'.SameAs e ∧ c'.rest = rest := by
  obtain ⟨es, c', hderives, hc', hnode⟩ :=
    h c.pastBlanks rest (pastBlanks_pastBlanks_rest hc) hrest
  obtain ⟨e', he', hsame⟩ := hnode none
  refine ⟨e', c', ?_, hsame, hc'⟩
  rw [← he']
  exact .ungrouped hderives

/-! ## Parentheses -/

/-- In parentheses a text is the first part of a run. -/
theorem readsRun_group (h : ReadsExpressions depth text e) (hstarts : Starts text)
    (hspine : e.hasOptionalLink = false) :
    ReadsRun (depth + 1) (group true text) e isDigits hasCall := by
  intro c rest hc _
  have hc₀ : c.rest = '(' :: (text ++ ')' :: rest) := by
    rw [hc]
    show '(' :: (text ++ [')'] ++ rest) = _
    rw [List.append_assoc]
    rfl
  have hc₁ : c.pastBlanks.rest = '(' :: (text ++ ')' :: rest) := by
    rw [Cursor.pastBlanks_rest, hc₀]
    rfl
  have hc₂ : (c.pastBlanks.skip 1).rest = text ++ ')' :: rest := by
    rw [Cursor.skip_rest, hc₁]
    rfl
  obtain ⟨es, c', hderives, hc', hnode⟩ :=
    h (c.pastBlanks.skip 1) (')' :: rest) (hstarts.pastBlanks_rest hc₂) (.closer (Or.inl rfl))
  -- The parentheses give their span to a sequence, and leave any other tree as it is.
  obtain ⟨e', he', hsame⟩ := hnode (some ⟨c.pastBlanks.position, (c'.skip 1).position⟩)
  have hne : es ≠ [] := by
    rintro rfl
    cases he'
  have hgroup := Derives.grouped (by rw [hc₁]; rfl) hderives (by rw [hc']; rfl) hne
  rw [he'] at hgroup
  have hprimary := Derives.primary (.group (by rw [hc₀]; rfl) hgroup)
  refine ⟨⟨e', false⟩, c'.skip 1, runsTo_primary hprimary, hsame, hspine.symm, ?_⟩
  rw [Cursor.skip_rest, hc']
  rfl

/-- A parenthesis is no unary operator. -/
theorem opensNoOperator_group : OpensNoOperator (group true text) := by
  intro rest _
  refine unaryOperator?_eq_none fun x hx => ?_
  obtain rfl := Option.some.inj hx
  exact ⟨Text.isIdentifierStart_of_mem_symbols (by decide), by decide⟩

end Source

end Estree
