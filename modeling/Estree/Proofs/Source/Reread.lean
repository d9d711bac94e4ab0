import Estree.Proofs.Source.Levels
import Estree.Proofs.Source.Operators
import Estree.Proofs.Source.Runs

/-!
# Trees read again

Of a tree that fits together the text is read as the tree itself, at every place where it stands
without parentheses (`rereads`). The one exception is a callee of `new` that has to be in
parentheses and begins with the word of an operator: within them the operator is read
(`Expr.isMisread`).

How the text of a tree may be read depends on what it has at its root. `Rereads` has one field for
each place in the grammar:

> as an expression among others, as an expression, as the operands of operators that bind at least
> so tightly, as an operand with unary operators, as a token, and as a run that links may follow.

A tree need not have them all: each field asks for a tree that binds tightly enough for the place.
Conversely a tree that is read at a narrow place is read at all wider ones too, so for each level
there is one lemma that fills in the fields from the narrowest place on (`Rereads.of_run`, …,
`Rereads.of_expressions`).

The theorem is an induction over the tree, with the levels that its text opens as a bound
(`RereadsIn`). The parts of a node stand at places of their own, and there they are in parentheses
or not, as the writer decides. Both ways they are read: `RereadsIn.group` reads a tree in
parentheses, `RereadsIn.ungrouped` one without, and the lemmas for the places (`RereadsIn.item`, …,
`RereadsIn.afterNew`) split into these two cases. Infix operators come last, as the left operand has
to be handed on as what the operator goes on after (`RereadsIn.joined`).
-/

open Estree.Expr

namespace Estree

/-! ## Binding -/

namespace InfixOperator

variable {operator inner : InfixOperator}

/-- The level that the right operand has to have is that of the least precedence read there. -/
theorem rightLevel_eq (operator : InfixOperator) :
    operator.rightLevel = 1 + operator.rightPrecedence := by
  unfold rightLevel rightPrecedence level
  split <;> omega

/-- The power is the operator that binds most tightly. -/
theorem precedence_lt_of_not_isRightAssociative (h : ¬operator.isRightAssociative = true)
    (hinner : inner.isRightAssociative = true) : operator.precedence < inner.precedence := by
  obtain rfl : inner = binary .exp := by simpa [isRightAssociative] using hinner
  rcases operator with operator | operator <;> cases operator <;>
    first | decide | exact absurd rfl h

/-- What may stand on the left without parentheses ends before the operator. -/
theorem precedence_lt_rightPrecedence (h : operator.leftLevel ≤ inner.level) :
    operator.precedence < inner.rightPrecedence := by
  unfold leftLevel level at h
  unfold rightPrecedence
  split at h
  next => split <;> omega
  next hoperator =>
    split
    next hinner => exact precedence_lt_of_not_isRightAssociative hoperator hinner
    next => omega

/-- What may stand on the right without parentheses goes on no further than the operator does. -/
theorem rightPrecedence_le (h : operator.rightLevel ≤ inner.level) :
    operator.rightPrecedence ≤ inner.rightPrecedence := by
  rw [rightLevel_eq, level] at h
  have hinner : inner.precedence ≤ inner.rightPrecedence := by
    unfold rightPrecedence
    split <;> omega
  omega

end InfixOperator

/-- Operators clash at the root only. -/
theorem Climbed.clashes_eq_false {climbed : Climbed} {operator : LogicalOperator}
    (h : ∀ inner ∈ climbed.bareLogical, operator.clashes inner = false) :
    climbed.clashes operator = false := by
  unfold clashes
  cases hlogical : climbed.bareLogical with
  | none => rfl
  | some inner => exact h inner hlogical

namespace Expr

variable {e x : Expr}

/-- The operator that joins the operands of the root. -/
def rootOperator? : Expr → Option InfixOperator
  | binary _ operator _ _ => some (.binary operator)
  | logical _ operator _ _ => some (.logical operator)
  | _ => none

/-- The level of operands that are joined is that of the operator that joins them. -/
theorem level_of_rootOperator? {operator : InfixOperator} (h : e.rootOperator? = some operator) :
    e.level = operator.level := by
  cases e with
  | binary => cases h; rfl
  | logical => cases h; rfl
  | _ => cases h

/-- Where a tree binds as an operand with unary operators does, no operator joins its root. -/
theorem rootOperator?_eq_none (h : Level.unary ≤ e.level) : e.rootOperator? = none := by
  cases hroot : e.rootOperator? with
  | none => rfl
  | some operator =>
    rw [level_of_rootOperator? hroot] at h
    exact absurd h (Nat.not_le.2 operator.level_lt_unary)

/-- A tree that may stand beside an operator has no logical operator at its root that must not. -/
theorem clashes_of_clashesWith {operator : InfixOperator} (h : e.clashesWith operator = false) :
    ∀ logical ∈ operator.logical?, ∀ inner ∈ e.rootOperator?.bind InfixOperator.logical?,
      logical.clashes inner = false := by
  intro logical hlogical inner hinner
  cases operator with
  | binary => cases hlogical
  | logical operator =>
    obtain rfl := Option.some.inj hlogical
    cases e with
    | logical span operator left right =>
      obtain rfl : operator = inner := Option.some.inj hinner
      exact h
    | _ => cases hinner

/-! ## Free operands -/

/-- Whatever is in parentheses before a link has no optional link on its spine. -/
theorem hasOptionalLink_of_isGroupedBeforeLink (h : e.isGroupedBeforeLink = true) :
    e.hasOptionalLink = false := by
  refine Bool.eq_false_iff.2 fun hhas => ?_
  have hlink := isLink_of_hasOptionalLink hhas
  rw [isGroupedBeforeLink, isChain_of_isLink hlink, isGroupedAt, level_of_isLink hlink] at h
  cases h

/-- A node that begins a run of its own is detached, or has to be in parentheses before a link. -/
theorem mem_detached_of_mem_standalone (h : x ∈ e.standalone) :
    x ∈ e.detached ∨ x.isGroupedBeforeLink = true := by
  cases e with
  | new span callee es => exact Or.inl (List.mem_cons_of_mem _ h)
  | call span callee es optional =>
    rw [standalone] at h
    split at h
    next hgrouped =>
      rcases List.mem_cons.1 h with rfl | hes
      · exact Or.inr hgrouped
      · exact Or.inl hes
    next => exact Or.inl h
  | member span object property computed optional =>
    simp only [standalone, List.mem_append, List.mem_ite_nil_right, List.mem_singleton] at h
    rcases h with ⟨hgrouped, rfl⟩ | ⟨-, rfl⟩
    · exact Or.inr hgrouped
    · exact Or.inl (List.mem_singleton_self _)
  | unary | binary | logical | conditional | array | sequence => exact Or.inl h
  | _ => cases h

/-- Where operands are read on their own, the trees can stand. -/
theorem Fits.isFree (h : e.Fits) (hx : x ∈ e.standalone) : x.IsFree where
  name := h.names x (mem_operands_of_mem_standalone hx)
  spine := by
    rcases mem_detached_of_mem_standalone hx with hdetached | hgrouped
    · exact h.spines x hdetached
    · exact hasOptionalLink_of_isGroupedBeforeLink hgrouped
  word := h.words x hx

end Expr

open Grammar Token

namespace Source

variable {depth : Nat} {e : Expr}

/-- The text of the tree is read as the tree wherever it may stand without parentheses. The levels
are those that are left where a primary expression is read. -/
structure Rereads (depth : Nat) (e : Expr) : Prop where
  starts : Starts e.text
  run : e.isReserved = false → Level.call ≤ e.level → e.isChain = false →
    ReadsRun depth e.text e e.bareDigits?.isSome e.hasCallInSpine
  unary : e.IsFree → Level.unary ≤ e.level →
    ReadsUnary (depth + 1) e.text e e.isUnary
  climb : e.IsFree → ∀ least, 1 ≤ least → 1 + least ≤ e.level →
    ReadsClimb (depth + 1) e.text e (e.rootOperator?.bind InfixOperator.logical?) e.isUnary
      (e.rootOperator?.map InfixOperator.rightPrecedence) least
  expression : e.IsFree → Level.conditional ≤ e.level → ReadsExpression (depth + 3) e.text e
  expressions : e.IsFree → ReadsExpressions (depth + 3) e.text e

namespace Rereads

/-! ## By the level of the tree -/

/-- A tree that is read among expressions only, as a sequence is. -/
theorem of_expressions (h : e.AllFit) (hlevel : e.level < Level.conditional)
    (hreads : e.IsFree → ReadsExpressions (depth + 3) e.text e) : Rereads depth e where
  starts := starts_text h
  run _ hcall := absurd (Nat.lt_of_le_of_lt hcall hlevel) (by decide)
  unary _ hunary := absurd (Nat.lt_of_le_of_lt hunary hlevel) (by decide)
  climb _ least _ hleast := by
    rw [Level.conditional] at hlevel
    omega
  expression _ hconditional := absurd (Nat.lt_of_le_of_lt hconditional hlevel) (by decide)
  expressions := hreads

/-- A tree that is read as an expression, but not as operands: a conditional. -/
theorem of_expression (h : e.AllFit) (hlevel : e.level = Level.conditional)
    (hreads : e.IsFree → ReadsExpression (depth + 3) e.text e) : Rereads depth e where
  starts := starts_text h
  run _ hcall := absurd (hlevel ▸ hcall) (by decide)
  unary _ hunary := absurd (hlevel ▸ hunary) (by decide)
  climb _ least hpos hleast := by
    rw [hlevel, Level.conditional] at hleast
    omega
  expression hfree _ := hreads hfree
  expressions hfree := readsExpressions_of_expression (hreads hfree)

/-- A tree that is read as operands joined by an operator. -/
theorem of_climb (h : e.AllFit) (hlow : Level.conditional < e.level) (hhigh : e.level < Level.unary)
    (hreads : e.IsFree → ∀ least, 1 ≤ least → 1 + least ≤ e.level →
      ReadsClimb (depth + 1) e.text e (e.rootOperator?.bind InfixOperator.logical?) e.isUnary
        (e.rootOperator?.map InfixOperator.rightPrecedence) least) : Rereads depth e := by
  have hexpression : e.IsFree → ReadsExpression (depth + 3) e.text e := fun hfree =>
    readsExpression_of_climb (hreads hfree 1 (Nat.le_refl 1) hlow)
  exact {
    starts := starts_text h
    run := fun _ hcall => absurd (Nat.lt_of_le_of_lt hcall hhigh) (by decide)
    unary := fun _ hunary => absurd (Nat.lt_of_le_of_lt hunary hhigh) (by decide)
    climb := hreads
    expression := fun hfree _ => hexpression hfree
    expressions := fun hfree => readsExpressions_of_expression (hexpression hfree) }

/-- A tree that is read as an operand with its unary operators. -/
theorem of_unary (h : e.AllFit) (hlevel : Level.unary ≤ e.level)
    (hrun : e.isReserved = false → Level.call ≤ e.level → e.isChain = false →
      ReadsRun depth e.text e e.bareDigits?.isSome e.hasCallInSpine)
    (hreads : e.IsFree → ReadsUnary (depth + 1) e.text e e.isUnary) : Rereads depth e := by
  have hexpression : e.IsFree → ReadsExpression (depth + 3) e.text e := fun hfree =>
    readsExpression_of_climb (readsClimb_of_unary (hreads hfree))
  refine ⟨starts_text h, hrun, fun hfree _ => hreads hfree, fun hfree least _ _ => ?_,
    fun hfree _ => hexpression hfree,
    fun hfree => readsExpressions_of_expression (hexpression hfree)⟩
  rw [rootOperator?_eq_none hlevel]
  exact readsClimb_of_unary (hreads hfree)

/-- A tree that is read as a token, and so wherever an operand is read. -/
theorem of_token (h : e.AllFit) (hlevel : Level.unary ≤ e.level) (hunary : e.isUnary = false)
    (hrun : e.isReserved = false → Level.call ≤ e.level → e.isChain = false →
      ReadsRun depth e.text e e.bareDigits?.isSome e.hasCallInSpine)
    (hreads : e.IsFree → ReadsToken depth e.text e) : Rereads depth e := by
  refine of_unary h hlevel hrun fun hfree => ?_
  rw [hunary]
  exact readsUnary_of_token (hreads hfree) (opensNoOperator_text h hfree.word hlevel hunary)

/-- A tree that is read as a run, and so as a token too. -/
theorem of_run (h : e.AllFit) (hlevel : Level.call ≤ e.level)
    (hrun : e.isReserved = false → ReadsRun depth e.text e e.bareDigits?.isSome e.hasCallInSpine) :
    Rereads depth e :=
  of_token h (Nat.le_trans (by decide) hlevel) (isUnary_of_level hlevel)
    (fun hreserved _ _ => hrun hreserved)
    fun hfree => readsToken_of_run (hrun hfree.name) hfree.spine

end Rereads

/-! ## At a place with or without parentheses -/

/-- What is written without parentheses binds as tightly as the place demands. -/
theorem level_of_not_grouped {least : Nat} (h : e.isGroupedAt least = false) : least ≤ e.level :=
  Nat.not_lt.1 (of_decide_eq_false h)

/-- The text of the tree is read as the tree wherever as many levels are left as it opens. -/
def RereadsIn (e : Expr) : Prop :=
  ∀ depth, e.levels ≤ depth → Rereads depth e

namespace RereadsIn

/-- The text of a tree begins an expression. -/
theorem starts (h : RereadsIn e) : Starts e.text :=
  (h e.levels (Nat.le_refl _)).starts

/-- In parentheses the tree is the first part of a run. -/
theorem runGroup (h : RereadsIn e) (hfree : e.IsFree)
    (hdepth : groupLevels true + e.levels ≤ depth) {isDigits hasCall : Bool} :
    ReadsRun depth (Source.group true e.text) e isDigits hasCall := by
  obtain ⟨below, rfl⟩ := Nat.exists_eq_add_of_le' (Nat.le_trans (Nat.le_add_right _ _) hdepth)
  have hbelow : e.levels ≤ below := by omega
  exact readsRun_group ((h below hbelow).expressions hfree) h.starts hfree.spine

/-- In parentheses the tree is an operand. -/
theorem group (h : RereadsIn e) (hfree : e.IsFree)
    (hdepth : groupLevels true + e.levels ≤ depth) :
    ReadsUnary (depth + 1) (Source.group true e.text) e false := by
  have hrun : ReadsRun depth (Source.group true e.text) e false false := h.runGroup hfree hdepth
  exact readsUnary_of_token (readsToken_of_run hrun hfree.spine) opensNoOperator_group

/-- Without parentheses the tree needs only the levels that its text opens. -/
theorem ungrouped (h : RereadsIn e) (hdepth : groupLevels false + e.levels ≤ depth) :
    Rereads depth e :=
  h depth (Nat.le_trans (Nat.le_add_left _ _) hdepth)

/-- An item of a list, and what stands in the branches of a conditional. -/
theorem item (h : RereadsIn e) (hfree : e.IsFree)
    (hdepth : groupLevels (e.isGroupedAt Level.conditional) + e.levels ≤ depth) :
    ReadsItem (depth + 3) e where
  starts := h.starts.group _
  reads := by
    unfold itemText
    cases hgrouped : e.isGroupedAt Level.conditional with
    | true =>
      rw [hgrouped] at hdepth
      exact readsExpression_of_climb (readsClimb_of_unary (h.group hfree hdepth))
    | false =>
      rw [hgrouped] at hdepth
      exact (h.ungrouped hdepth).expression hfree (level_of_not_grouped hgrouped)

/-- The operand of a unary operator. -/
theorem unaryOperand (h : RereadsIn e) (hfree : e.IsFree)
    (hdepth : groupLevels (e.isGroupedAt Level.unary) + e.levels ≤ depth) : ∃ isUnary,
    ReadsUnary (depth + 1) (Source.group (e.isGroupedAt Level.unary) e.text) e isUnary := by
  cases hgrouped : e.isGroupedAt Level.unary with
  | true =>
    rw [hgrouped] at hdepth
    exact ⟨_, h.group hfree hdepth⟩
  | false =>
    rw [hgrouped] at hdepth
    exact ⟨_, (h.ungrouped hdepth).unary hfree (level_of_not_grouped hgrouped)⟩

/-- The test of a conditional. -/
theorem test (h : RereadsIn e) (hfree : e.IsFree)
    (hdepth : groupLevels (e.isGroupedAt (Level.conditional + 1)) + e.levels ≤ depth) :
    ∃ logical? isUnary bound?,
      ReadsClimb (depth + 1) (Source.group (e.isGroupedAt (Level.conditional + 1)) e.text) e
        logical? isUnary bound? 1 := by
  cases hgrouped : e.isGroupedAt (Level.conditional + 1) with
  | true =>
    rw [hgrouped] at hdepth
    exact ⟨_, _, _, readsClimb_of_unary (h.group hfree hdepth)⟩
  | false =>
    rw [hgrouped] at hdepth
    exact ⟨_, _, _,
      (h.ungrouped hdepth).climb hfree 1 (Nat.le_refl 1) (level_of_not_grouped hgrouped)⟩

/-- The left operand of an infix operator. -/
theorem left (h : RereadsIn e) (hfree : e.IsFree) {operator : InfixOperator} {least : Nat}
    (hpos : 1 ≤ least) (hleast : least ≤ operator.precedence)
    (hdepth : groupLevels (e.isGroupedBefore operator) + e.levels ≤ depth) :
    ∃ logical? isUnary bound?,
      ReadsClimb (depth + 1) (Source.group (e.isGroupedBefore operator) e.text) e logical? isUnary
        bound? least ∧
      ¬(isUnary = true ∧ operator = .binary .exp) ∧
      (∀ bound ∈ bound?, operator.precedence < bound) ∧
      ∀ logical ∈ operator.logical?, ∀ inner ∈ logical?, logical.clashes inner = false := by
  cases hgrouped : e.isGroupedBefore operator with
  | true =>
    rw [hgrouped] at hdepth
    exact ⟨none, false, none, readsClimb_of_unary (h.group hfree hdepth), nofun, nofun, nofun⟩
  | false =>
    rw [hgrouped] at hdepth
    obtain ⟨hnot, hlevel⟩ := Bool.or_eq_false_iff.1 hgrouped
    obtain ⟨hexp, hclash⟩ := Bool.or_eq_false_iff.1 hnot
    have hlevel := level_of_not_grouped hlevel
    have hleft : operator.level ≤ operator.leftLevel := by
      unfold InfixOperator.leftLevel
      split <;> omega
    refine ⟨_, _, _, (h.ungrouped hdepth).climb hfree least hpos ?_, ?_, ?_,
      clashes_of_clashesWith hclash⟩
    · rw [InfixOperator.level] at hleft
      omega
    · rintro ⟨hunary, rfl⟩
      rw [hunary] at hexp
      cases hexp
    · intro bound hbound
      obtain ⟨inner, hinner, rfl⟩ := Option.map_eq_some_iff.1 hbound
      rw [level_of_rootOperator? hinner] at hlevel
      exact InfixOperator.precedence_lt_rightPrecedence hlevel

/-- The right operand of an infix operator. -/
theorem right (h : RereadsIn e) (hfree : e.IsFree) {operator : InfixOperator}
    (hdepth : groupLevels (e.isGroupedAfter operator) + e.levels ≤ depth) :
    ∃ logical? isUnary bound?,
      ReadsClimb (depth + 1) (Source.group (e.isGroupedAfter operator) e.text) e logical? isUnary
        bound? operator.rightPrecedence ∧
      (∀ bound ∈ bound?, operator.rightPrecedence ≤ bound) ∧
      ∀ logical ∈ operator.logical?, ∀ inner ∈ logical?, logical.clashes inner = false := by
  cases hgrouped : e.isGroupedAfter operator with
  | true =>
    rw [hgrouped] at hdepth
    exact ⟨none, false, none, readsClimb_of_unary (h.group hfree hdepth), nofun, nofun⟩
  | false =>
    rw [hgrouped] at hdepth
    obtain ⟨hclash, hlevel⟩ := Bool.or_eq_false_iff.1 hgrouped
    have hlevel := level_of_not_grouped hlevel
    have hpos : 1 ≤ operator.rightPrecedence := by
      have := operator.precedence_pos
      unfold InfixOperator.rightPrecedence
      split <;> omega
    refine ⟨_, _, _, (h.ungrouped hdepth).climb hfree _ hpos ?_, ?_, clashes_of_clashesWith hclash⟩
    · rwa [← InfixOperator.rightLevel_eq]
    · intro bound hbound
      obtain ⟨inner, hinner, rfl⟩ := Option.map_eq_some_iff.1 hbound
      rw [level_of_rootOperator? hinner] at hlevel
      exact InfixOperator.rightPrecedence_le hlevel

/-- The object of an access in brackets or the callee of a call. -/
theorem beforeLink (h : RereadsIn e) (hreserved : e.isReserved = false)
    (hfree : e.isGroupedBeforeLink = true → e.IsFree)
    (hdepth : groupLevels e.isGroupedBeforeLink + e.levels ≤ depth) :
    ReadsRun depth (Source.group e.isGroupedBeforeLink e.text) e e.bareDigits?.isSome
      e.hasCallInSpine := by
  cases hgrouped : e.isGroupedBeforeLink with
  | true =>
    rw [hgrouped] at hdepth
    exact h.runGroup (hfree hgrouped) hdepth
  | false =>
    rw [hgrouped] at hdepth
    obtain ⟨hchain, hlevel⟩ := ungroupedBeforeLink hgrouped
    exact (h.ungrouped hdepth).run hreserved hlevel hchain

/-- The object of an access by name. -/
theorem beforeName (h : RereadsIn e) (hreserved : e.isReserved = false)
    (hfree : e.isGroupedBeforeLink = true → e.IsFree)
    (hdepth : groupLevels e.isGroupedBeforeName + e.levels ≤ depth) :
    ReadsRun depth (Source.group e.isGroupedBeforeName e.text) e false e.hasCallInSpine := by
  unfold isGroupedBeforeName at hdepth ⊢
  cases hdigits : e.bareDigits?.isSome with
  | true =>
    rw [hdigits] at hdepth
    have hliteral : e.hasOptionalLink = false ∧ e.opensWithOperator = false := by
      cases e <;> first | exact ⟨rfl, rfl⟩ | cases hdigits
    exact h.runGroup ⟨hreserved, hliteral.1, hliteral.2⟩ hdepth
  | false =>
    rw [hdigits] at hdepth
    have hrun := h.beforeLink hreserved hfree hdepth
    rw [hdigits] at hrun
    exact hrun

/-- The callee of a `new`. -/
theorem afterNew (h : RereadsIn e) (hreserved : e.isReserved = false)
    (hfree : e.isGroupedAfterNew = true → e.IsFree)
    (hdepth : groupLevels e.isGroupedAfterNew + e.levels ≤ depth) :
    ReadsRun depth (Source.group e.isGroupedAfterNew e.text) e e.bareDigits?.isSome false := by
  cases hgrouped : e.isGroupedAfterNew with
  | true =>
    rw [hgrouped] at hdepth
    exact h.runGroup (hfree hgrouped) hdepth
  | false =>
    rw [hgrouped] at hdepth
    obtain ⟨hnot, hlevel⟩ := Bool.or_eq_false_iff.1 hgrouped
    obtain ⟨hchain, hcall⟩ := Bool.or_eq_false_iff.1 hnot
    have hrun := (h.ungrouped hdepth).run hreserved (level_of_not_grouped hlevel) hchain
    rwa [hcall] at hrun

/-! ## Operands joined -/

/-- A tree with an infix operator at its root. -/
theorem joined {operator : InfixOperator} {left right : Expr} (h : e.AllFit)
    (hroot : e.rootOperator? = some operator) (hunary : e.isUnary = false)
    (htext : e.text = infixText operator
      (Source.group (left.isGroupedBefore operator) left.text)
      (Source.group (right.isGroupedAfter operator) right.text))
    (hsame : (operator.join left right).SameAs e)
    (hleft : RereadsIn left ∧ left.IsFree) (hright : RereadsIn right ∧ right.IsFree)
    (hleftDepth : groupLevels (left.isGroupedBefore operator) + left.levels ≤ depth)
    (hrightDepth : 1 + groupLevels (right.isGroupedAfter operator) + right.levels ≤ depth) :
    Rereads depth e := by
  have hlevel := level_of_rootOperator? hroot
  have hpos := operator.precedence_pos
  have hlow : Level.conditional < e.level := by
    rw [hlevel, InfixOperator.level, Level.conditional]
    omega
  refine .of_climb h hlow (hlevel ▸ operator.level_lt_unary) fun _ least hleast₁ hleast => ?_
  have hprecedence : least ≤ operator.precedence := by
    rw [hlevel, InfixOperator.level] at hleast
    omega
  obtain ⟨below, rfl⟩ : ∃ below, depth = below + 1 := ⟨depth - 1, by omega⟩
  obtain ⟨_, _, _, hclimb, hexp, hbound, hclash⟩ :=
    hleft.1.left hleft.2 hleast₁ hprecedence hleftDepth
  have hbelow : groupLevels (right.isGroupedAfter operator) + right.levels ≤ below := by omega
  obtain ⟨_, _, _, hclimb', hbound', hclash'⟩ := hright.1.right hright.2 hbelow
  have hjoined := readsClimb_infix hclimb hclimb' (hright.1.starts.group _) hprecedence hexp hbound
    hbound' fun _ _ logical hlogical =>
      ⟨Climbed.clashes_eq_false (hclash logical hlogical),
        Climbed.clashes_eq_false (hclash' logical hlogical)⟩
  rw [hroot, hunary, htext]
  exact hjoined.of_sameAs hsame

end RereadsIn

/-- A tree that fits together is read again, unless an operator is read where there was none. -/
theorem rereads (h : e.AllFit) (hread : ∀ n ∈ e.nodes, n.isMisread = false) : RereadsIn e := by
  induction e using Expr.induction with
  | h e ih =>
    intro depth hdepth
    have hfits := h.root
    have hshape := hfits.shape
    have hchild : ∀ x ∈ e.children, RereadsIn x := fun x hx =>
      ih x hx (h.child hx) fun n hn => hread n (mem_nodes_of_mem_children hx hn)
    have hfree : ∀ x ∈ e.standalone, RereadsIn x ∧ x.IsFree := fun x hx =>
      ⟨hchild x (mem_children_of_mem_operands (mem_operands_of_mem_standalone hx)), hfits.isFree hx⟩
    obtain ⟨hown, hsteps⟩ := levels_le_iff.1 hdepth
    -- A node below has to be free of reserved words in any case; where it is in parentheses, or
    -- would be read with an operator in front, it has to be free of everything else (`standalone`).
    have hprimary : Level.call ≤ Level.primary := by decide
    have hcall : Level.unary ≤ Level.call := by decide
    cases e with
    | literal span raw value =>
      obtain ⟨below, rfl⟩ := Nat.exists_eq_add_of_le' hown
      exact .of_run h hprimary fun _ => readsRun_literal hshape
    | identifier span name =>
      obtain ⟨below, rfl⟩ := Nat.exists_eq_add_of_le' hown
      exact .of_run h hprimary fun hname => readsRun_identifier hshape hname
    | this span =>
      obtain ⟨below, rfl⟩ := Nat.exists_eq_add_of_le' hown
      exact .of_run h hprimary fun _ => readsRun_this
    | array span elements =>
      -- An item is read three levels below the array, and the step to it counts all that are in
      -- between.
      obtain ⟨below, rfl⟩ : ∃ below, depth = below + 3 + 1 :=
        ⟨depth - 4, by have : 5 ≤ depth := hown; omega⟩
      have hitem : ∀ x ∈ elements.filterMap id, ReadsItem (below + 3) x := fun x hx => by
        obtain ⟨i, hi⟩ := List.mem_iff_getElem?.1 hx
        have hstep : 4 + groupLevels (x.isGroupedAt Level.conditional) + x.levels ≤ below + 3 + 1 :=
          hsteps i x hi
        exact (hfree x hx).1.item (hfree x hx).2 (by omega)
      exact .of_run h hprimary fun _ => readsRun_array
        (fun x hx => hitem x (List.mem_filterMap.2 ⟨some x, hx, rfl⟩))
        (by have : 5 ≤ below + 3 + 1 := hown; omega)
    | sequence span es =>
      have hlevel : Level.sequence < Level.conditional := by decide
      have hitem : ∀ x ∈ es, ReadsItem (depth + 3) x := fun x hx => by
        obtain ⟨i, hi⟩ := List.mem_iff_getElem?.1 hx
        exact (hfree x hx).1.item (hfree x hx).2 (hsteps i x hi)
      exact .of_expressions h hlevel fun _ => readsExpressions_sequence hitem hshape
    | conditional span test consequent alternate =>
      obtain ⟨hreads, htest⟩ := hfree test (by simp [standalone])
      obtain ⟨_, _, _, hclimb⟩ := hreads.test htest (hsteps 0 test rfl)
      obtain ⟨below, rfl⟩ : ∃ below, depth = below + 1 :=
        ⟨depth - 1, by have : 1 ≤ depth := hown; omega⟩
      have hbranch : ∀ x ∈ [consequent, alternate],
          1 + groupLevels (x.isGroupedAt Level.conditional) + x.levels ≤ below + 1 →
            ReadsItem (below + 3) x := fun x hx hstep => by
        obtain ⟨hreads, hx⟩ := hfree x (List.mem_cons_of_mem _ hx)
        exact hreads.item hx (by omega)
      exact .of_expression h rfl fun _ => readsExpression_conditional hclimb
        (hbranch consequent (by simp) (hsteps 1 consequent rfl))
        (hbranch alternate (by simp) (hsteps 2 alternate rfl))
    | new span callee es =>
      obtain ⟨below, rfl⟩ : ∃ below, depth = below + 3 + 1 :=
        ⟨depth - 4, by have : 5 ≤ depth := hown; omega⟩
      have hcallee := hchild callee (List.mem_cons_self ..)
      have hreserved : callee.isReserved = false := hfits.names callee (List.mem_cons_self ..)
      have hspine : callee.hasOptionalLink = false := hfits.spines callee (List.mem_cons_self ..)
      have hmisread : (callee.isGroupedAfterNew && callee.opensWithOperator) = false :=
        hread _ (mem_nodes_self _)
      have hstep : 1 + groupLevels callee.isGroupedAfterNew + callee.levels ≤ below + 3 + 1 :=
        hsteps 0 callee rfl
      -- Only in parentheses an operator would be read, and then the node would be misread.
      have hrun : ReadsRun (below + 3) _ callee _ _ :=
        hcallee.afterNew hreserved (fun hgrouped => by
          rw [hgrouped, Bool.true_and] at hmisread
          exact ⟨hreserved, hspine, hmisread⟩) (by omega)
      have hitem : ∀ x ∈ es, ReadsItem (below + 3) x := fun x hx => by
        obtain ⟨i, hi⟩ := List.mem_iff_getElem?.1 hx
        have hstep : 4 + groupLevels (x.isGroupedAt Level.conditional) + x.levels ≤ below + 3 + 1 :=
          hsteps (i + 1) x hi
        exact (hfree x hx).1.item (hfree x hx).2 (by omega)
      exact .of_run h (Nat.le_refl _) fun _ => readsRun_new hrun (hcallee.starts.group _) hspine
        hshape hitem (by have : 5 ≤ below + 3 + 1 := hown; omega)
    | call span callee es optional =>
      obtain ⟨below, rfl⟩ : ∃ below, depth = below + 3 :=
        ⟨depth - 3, by have : 4 ≤ depth := hown; omega⟩
      have hcallee := hchild callee (List.mem_cons_self ..)
      have hreserved : callee.isReserved = false := hfits.names callee (List.mem_cons_self ..)
      have hrun := hcallee.beforeLink hreserved (fun hgrouped =>
        (hfree callee (by rw [standalone, if_pos hgrouped]; exact List.mem_cons_self ..)).2)
        (hsteps 0 callee rfl)
      have hitem : ∀ x ∈ es, ReadsItem (below + 3) x := fun x hx => by
        have hstandalone : x ∈ (call span callee es optional).standalone := by
          rw [standalone]
          split
          next => exact List.mem_cons_of_mem _ hx
          next => exact hx
        obtain ⟨i, hi⟩ := List.mem_iff_getElem?.1 hx
        have hstep : 3 + groupLevels (x.isGroupedAt Level.conditional) + x.levels ≤ below + 3 :=
          hsteps (i + 1) x hi
        exact (hfree x hstandalone).1.item (hfree x hstandalone).2 (by omega)
      cases optional with
      | true => exact .of_run h (Nat.le_refl _) fun _ => readsRun_optionalCall hrun hitem hown
      | false => exact .of_run h (Nat.le_refl _) fun _ => readsRun_call hrun hitem hown
    | member span object property computed optional =>
      have hobject := hchild object (List.mem_cons_self ..)
      -- The object is a name before a point as well as before a bracket, so both kinds of access
      -- ask for the same.
      have hreserved : object.isReserved = false := by
        cases computed <;> exact hfits.names object (List.mem_cons_self ..)
      have hgrouped : object.isGroupedBeforeLink = true → object.IsFree := fun hgrouped =>
        (hfree object (by simp [standalone, hgrouped])).2
      cases computed with
      | true =>
        obtain ⟨hproperty, hpropertyFree⟩ := hfree property (by simp [standalone])
        have hrun := hobject.beforeLink hreserved hgrouped (hsteps 0 object rfl)
        have hstep : 3 + property.levels ≤ depth := hsteps 1 property rfl
        obtain ⟨below, rfl⟩ : ∃ below, depth = below + 3 := ⟨depth - 3, by omega⟩
        exact .of_run h (Nat.le_refl _) fun _ => readsRun_computed hrun
          ((hproperty below (by omega)).expressions hpropertyFree) hproperty.starts
      | false =>
        have hidentifier : property.isIdentifier = true := hshape rfl
        have hname := (h.child (x := property) (by simp [children])).root.shape
        cases property with
        | identifier nameSpan name =>
          exact .of_run h (Nat.le_refl _) fun _ =>
            readsRun_named (hobject.beforeName hreserved hgrouped (hsteps 0 object rfl)) hname
        | _ => cases hidentifier
    | chain span expression =>
      have hstep : 0 + expression.levels ≤ depth := hsteps 0 expression rfl
      -- A chain has the text of the run that it holds, and is put around it when the run is
      -- finished.
      have hexpression := hchild expression (List.mem_cons_self ..) depth (by omega)
      have hlink : expression.isLink = true := isLink_of_hasOptionalLink hshape
      have hreserved : expression.isReserved = false :=
        hfits.names expression (List.mem_cons_self ..)
      have hrun := hexpression.run hreserved (Nat.le_of_eq (level_of_isLink hlink).symm)
        (isChain_of_isLink hlink)
      exact .of_token h hcall rfl (fun _ _ hnot => by cases hnot) fun _ =>
        readsToken_chain hrun hshape
    | update span operator leading argument =>
      have hstep : leading.toNat + argument.levels ≤ depth := hsteps 0 argument rfl
      obtain ⟨below, rfl⟩ : ∃ below, depth = below + leading.toNat :=
        ⟨depth - leading.toNat, by omega⟩
      have hargument := hchild argument (List.mem_cons_self ..) below (by omega)
      have hplace : argument.isPlace = true := hshape
      have hspine : argument.hasOptionalLink = false :=
        hfits.spines argument (List.mem_cons_self ..)
      have hreserved : argument.isReserved = false := hfits.names argument (List.mem_cons_self ..)
      have hchain : argument.isChain = false := by
        cases argument <;> first | rfl | cases hplace
      have hrun := hargument.run hreserved (level_of_isPlace hplace) hchain
      cases leading with
      | true =>
        -- An update is no run, so there is nothing to show of links behind it.
        have hnoRun : ¬Level.call ≤ Level.unary := by decide
        exact .of_token h (Nat.le_refl _) rfl (fun _ hcall => absurd hcall hnoRun)
          fun _ => readsToken_leadingUpdate hrun hargument.starts hspine hplace
      | false =>
        have hnoRun : ¬Level.call ≤ Level.trailingUpdate := by decide
        have hlevel : Level.unary ≤ Level.trailingUpdate := by decide
        exact .of_token h hlevel rfl (fun _ hcall => absurd hcall hnoRun)
          fun _ => readsToken_trailingUpdate hrun hspine hplace
    | unary span operator leading argument =>
      obtain rfl : leading = true := hshape
      obtain ⟨hargument, hfree⟩ := hfree argument (List.mem_cons_self ..)
      have hstep : 1 + groupLevels (argument.isGroupedAt Level.unary) + argument.levels ≤ depth :=
        hsteps 0 argument rfl
      obtain ⟨below, rfl⟩ : ∃ below, depth = below + 1 := ⟨depth - 1, by omega⟩
      -- The operand is read at the same place again, one level further down.
      obtain ⟨_, hreads⟩ := hargument.unaryOperand hfree (show _ ≤ below by omega)
      have hnoRun : ¬Level.call ≤ Level.unary := by decide
      exact .of_unary h (Nat.le_refl _) (fun _ hcall => absurd hcall hnoRun) fun _ =>
        readsUnary_unary hreads (hargument.starts.group _)
    | binary span operator left right | logical span operator left right =>
      exact RereadsIn.joined h rfl rfl rfl rfl (hfree left (by simp [standalone]))
        (hfree right (by simp [standalone])) (hsteps 0 left rfl) (hsteps 1 right rfl)

end Source

end Estree
