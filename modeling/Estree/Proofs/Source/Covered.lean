import Estree.Proofs.Grammar.Stops
import Estree.Proofs.Source.Gained
import Estree.Proofs.Source.Reread

/-!
# Levels that have been opened

When a tree is read, levels are opened for it. `Expr.Covered` says that they are as many as the kept
levels of its text, and here it is handed on from the nodes right below a node to the node: one
lemma for each kind of node (`covered_array`, …, `covered_new`), with the levels that its production
opens as a hypothesis. The lemma for a node need not look at what the node gains, as those ways are
not among the kept ones.

Parentheses that a tree was read in leave no trace in it, and they may be more than the text has. So
what is known of an operand is one of two things:

> it was read in parentheses, and then there are levels for a pair of them around it, whatever the
> place demands (`Covered.of_grouped`);
> or it was read in none, and then its operators bind as tightly as the place demands, and its text
> has none there either.

The second case is where precedence comes in. `HasRoot` and `StandsLeft` say how the outermost
operator of an operand without parentheses binds, and the lemmas on them that no parentheses are
written. `Grammar.IsJoined`, `Grammar.IsUnary`, `Grammar.IsWhole` and `Grammar.IsFirst` are the two
cases at the places of the grammar.

Two places are special, as the text may gain parentheses there. A run of links that begins with
digits keeps the levels of their parentheses only if a link follows (`Grammar.IsOpenRun`), and the
callee of a `new` has them if it is enclosed in the source (`covered_new`).
-/

open Estree.Expr

namespace Estree

namespace Expr

/-! ## Levels at a place -/

/-- The tree has been read with enough levels for the kept ones of its text: at a place that is so
many levels above a primary expression, in parentheses or not. -/
def Covered (source : String) (depth above : Nat) (isGrouped : Bool) (e : Expr) : Prop :=
  above + groupLevels isGrouped + e.keptLevels source ≤ depth

variable {source : String} {depth above : Nat} {isGrouped : Bool} {e : Expr} {es : List Expr}
  {span : Span}

/-- Parentheses that are there need not be written. -/
theorem Covered.of_grouped (h : Covered source depth above true e) (isGrouped : Bool) :
    Covered source depth above isGrouped e := by
  have hgroup : groupLevels isGrouped ≤ groupLevels true := by
    cases isGrouped <;> decide
  unfold Covered at h ⊢
  omega

/-- Without its parentheses a node takes no more levels. -/
theorem Covered.ungrouped (h : Covered source depth above isGrouped e) :
    Covered source depth above false e := by
  unfold Covered at h ⊢
  have hfalse : groupLevels false = 0 := rfl
  omega

/-- Where a primary expression is read and no parentheses are, the levels are the kept ones. -/
theorem covered_iff : Covered source depth 0 false e ↔ e.keptLevels source ≤ depth := by
  have hfalse : groupLevels false = 0 := rfl
  rw [Covered, hfalse, Nat.zero_add]

/-! ## Nodes put together -/

/-- A tree without trees below it. -/
theorem covered_leaf (hdepth : 1 ≤ depth) (hown : e.ownLevels = 1) (hchildren : e.children = []) :
    Covered source depth 0 false e := by
  refine covered_iff.2 (keptLevels_le_of_forall (by omega) fun i y hy => ?_)
  rw [hchildren] at hy
  cases hy

/-- Trees between brackets. -/
theorem covered_array {elements : List (Option Expr)} (hdepth : 4 ≤ depth)
    (h : ∀ x, some x ∈ elements → Covered source depth 3 (x.isGroupedAt Level.conditional) x) :
    Covered source (depth + 1) 0 false (.array span elements) := by
  refine covered_iff.2 (keptLevels_le_of_forall (Nat.succ_le_succ hdepth) fun i y hy => ?_)
  obtain ⟨slot, hslot, hsome⟩ := List.mem_filterMap.1 (List.mem_of_getElem? hy)
  obtain rfl : slot = some y := hsome
  have hitem : 3 + groupLevels (y.isGroupedAt Level.conditional) + y.keptLevels source ≤ depth :=
    h y hslot
  show 4 + groupLevels (y.isGroupedAt Level.conditional) + y.keptLevels source ≤ depth + 1
  omega

/-- Trees with commas between them. -/
theorem covered_sequence (hdepth : 4 ≤ depth)
    (h : ∀ x ∈ es, Covered source depth 3 (x.isGroupedAt Level.conditional) x) :
    Covered source depth 3 false (.sequence span es) := by
  obtain ⟨below, rfl⟩ := Nat.exists_eq_add_of_le' hdepth
  have hlevels : (sequence span es).keptLevels source ≤ below + 1 := by
    refine keptLevels_le_of_forall (Nat.le_add_left 1 below) fun i y hy => ?_
    have hitem : 3 + groupLevels (y.isGroupedAt Level.conditional) + y.keptLevels source ≤
        below + 4 := h y (List.mem_of_getElem? hy)
    show groupLevels (y.isGroupedAt Level.conditional) + y.keptLevels source ≤ below + 1
    omega
  show 3 + 0 + (sequence span es).keptLevels source ≤ _
  omega

/-- Its test is read one level above an operand, its branches are as items are. -/
theorem covered_conditional {test consequent alternate : Expr} (hdepth : 3 ≤ depth)
    (htest : Covered source depth 2 (test.isGroupedAt (Level.conditional + 1)) test)
    (hconsequent : Covered source depth 3 (consequent.isGroupedAt Level.conditional) consequent)
    (halternate : Covered source depth 3 (alternate.isGroupedAt Level.conditional) alternate) :
    Covered source depth 2 false (.conditional span test consequent alternate) := by
  obtain ⟨below, rfl⟩ := Nat.exists_eq_add_of_le' hdepth
  unfold Covered at htest hconsequent halternate
  have hlevels : (conditional span test consequent alternate).keptLevels source ≤ below + 1 := by
    refine keptLevels_le_of_forall (Nat.le_add_left 1 below) ?_
    refine forall_getElem?_cons.2 ⟨?_, forall_getElem?_cons.2
      ⟨?_, forall_getElem?_cons.2 ⟨?_, forall_getElem?_nil⟩⟩⟩
    · show groupLevels (test.isGroupedAt (Level.conditional + 1)) + test.keptLevels source ≤ _
      omega
    · show 1 + groupLevels (consequent.isGroupedAt Level.conditional) +
        consequent.keptLevels source ≤ _
      omega
    · show 1 + groupLevels (alternate.isGroupedAt Level.conditional) +
        alternate.keptLevels source ≤ _
      omega
  show 2 + 0 + (conditional span test consequent alternate).keptLevels source ≤ _
  omega

/-- Operands with an operator between them. -/
theorem covered_join {operator : InfixOperator} {left right : Expr} (hdepth : 1 ≤ depth)
    (hleft : Covered source depth 0 (left.isGroupedBefore operator) left)
    (hright : Covered source depth 1 (right.isGroupedAfter operator) right) :
    Covered source depth 0 false (operator.join left right) := by
  have hstepLeft : groupLevels (left.isGroupedBefore operator) + left.keptLevels source ≤
      depth := by
    unfold Covered at hleft
    omega
  refine covered_iff.2 ?_
  cases operator with
  | binary operator | logical operator =>
    exact keptLevels_le_of_forall hdepth
      (forall_getElem?_cons.2 ⟨hstepLeft, forall_getElem?_cons.2 ⟨hright, forall_getElem?_nil⟩⟩)

/-- A unary operator takes one level, and its operand is read where operands are. -/
theorem covered_unary {operator : UnaryOperator} (hdepth : 1 ≤ depth)
    (h : Covered source depth 1 (e.isGroupedAt Level.unary) e) :
    Covered source depth 0 false (.unary span operator true e) :=
  covered_iff.2 (keptLevels_le_of_forall hdepth
    (forall_getElem?_cons.2 ⟨h, forall_getElem?_nil⟩))

/-- An update takes the level of its operand and, before the place, one of its own. -/
theorem covered_update {operator : UpdateOperator} {leading : Bool} (hdepth : 1 ≤ depth)
    (h : Covered source depth 0 false e) :
    Covered source (depth + leading.toNat) 0 false (.update span operator leading e) := by
  have hstep : leading.toNat + e.keptLevels source ≤ depth + leading.toNat := by
    have hargument := covered_iff.1 h
    omega
  exact covered_iff.2 (keptLevels_le_of_forall (Nat.le_add_right_of_le hdepth)
    (forall_getElem?_cons.2 ⟨hstep, forall_getElem?_nil⟩))

/-- A run of links that is complete, as a chain or as it is. -/
theorem covered_finish {run : Links} (hdepth : 1 ≤ depth)
    (h : Covered source depth 0 false run.node) :
    Covered source depth 0 false run.finish := by
  unfold Links.finish
  split
  next =>
    have hstep : 0 + run.node.keptLevels source ≤ depth := by
      rw [Nat.zero_add]
      exact covered_iff.1 h
    exact covered_iff.2 (keptLevels_le_of_forall hdepth
      (forall_getElem?_cons.2 ⟨hstep, forall_getElem?_nil⟩))
  next => exact h

/-- A member access in brackets. -/
theorem covered_computed {object property : Expr} {optional : Bool} (hdepth : 1 ≤ depth)
    (hobject : Covered source depth 0 object.isGroupedBeforeLink object)
    (hproperty : Covered source depth 3 false property) :
    Covered source depth 0 false (.member span object property true optional) := by
  have hstepObject : groupLevels object.isGroupedBeforeLink + object.keptLevels source ≤ depth := by
    unfold Covered at hobject
    omega
  exact covered_iff.2 (keptLevels_le_of_forall hdepth
    (forall_getElem?_cons.2 ⟨hstepObject, forall_getElem?_cons.2 ⟨hproperty, forall_getElem?_nil⟩⟩))

/-- Whether the parentheses around an object are written before a link, or around digits that the
source has in parentheses. -/
def keepsGroup (source : String) (e : Expr) : Bool :=
  e.isGroupedBeforeLink || e.bareDigits?.isSome && e.span.isEnclosed source

/-- Only digits need more than a place before a link does. -/
theorem Covered.of_keepsGroup (h : Covered source depth above (e.keepsGroup source) e) :
    Covered source depth above e.isGroupedBeforeLink e := by
  unfold keepsGroup at h
  cases hgrouped : e.isGroupedBeforeLink with
  | true => rwa [hgrouped] at h
  | false => exact h.ungrouped

/-- A member access by name. Digits before it are put in parentheses, and if that is no gain the
source has them. -/
theorem covered_named {object property : Expr} {optional : Bool} (hdepth : 1 ≤ depth)
    (hobject : Covered source depth 0 (object.keepsGroup source) object)
    (hproperty : Covered source depth 0 false property) :
    Covered source depth 0 false (.member span object property false optional) := by
  have hstepObject : gainsParentheses source (member span object property false optional) 0 object =
      false → groupLevels object.isGroupedBeforeName + object.keptLevels source ≤ depth := by
    intro hgains
    have hgrouped : object.isGroupedBeforeName = object.keepsGroup source := by
      rw [gainsParentheses_object] at hgains
      unfold isGroupedBeforeName keepsGroup
      cases hdigits : object.bareDigits?.isSome with
      | false => simp
      | true =>
        rw [hdigits, Bool.true_and, Bool.not_eq_false'] at hgains
        simp [hgains]
    unfold Covered at hobject
    rw [hgrouped]
    omega
  have hstepProperty : 0 + property.keptLevels source ≤ depth := by
    rw [Nat.zero_add]
    exact covered_iff.1 hproperty
  exact covered_iff.2 (keptLevels_le (fun _ => hdepth) (forall_getElem?_cons.2
    ⟨hstepObject, forall_getElem?_cons.2 ⟨fun _ => hstepProperty, forall_getElem?_nil⟩⟩))

/-- A call looks for an expression at least, and its arguments are items. -/
theorem covered_call {callee : Expr} {optional : Bool} (hdepth : 4 ≤ depth)
    (hcallee : Covered source depth 0 callee.isGroupedBeforeLink callee)
    (hes : ∀ x ∈ es, Covered source depth 3 (x.isGroupedAt Level.conditional) x) :
    Covered source depth 0 false (.call span callee es optional) := by
  have hstepCallee : groupLevels callee.isGroupedBeforeLink + callee.keptLevels source ≤ depth := by
    unfold Covered at hcallee
    omega
  exact covered_iff.2 (keptLevels_le_of_forall hdepth
    (forall_getElem?_cons.2 ⟨hstepCallee, fun i y hy => hes y (List.mem_of_getElem? hy)⟩))

/-- The callee of a `new`, of which the text gains no parentheses: either it has those of the
source, or it needs none but those that any link demands. -/
theorem covered_callee {callee : Expr}
    (hcallee : Covered source depth 0 callee.isGroupedBeforeLink callee ∨
      callee.isLeadingUpdate = true ∧ Covered source depth 0 false callee)
    (henclosed : callee.span.isEnclosed source = true → Covered source depth 0 true callee)
    (hgains : gainsParentheses source (new span callee es) 0 callee = false) :
    Covered source depth 0 callee.isGroupedAfterNew callee := by
  by_cases hsource : callee.span.isEnclosed source = true
  · exact (henclosed hsource).of_grouped _
  · have hgains : callee.hasCallInSpine = false ∧ callee.isLeadingUpdate = false := by
      rwa [gainsParentheses_callee, Bool.eq_false_iff.2 hsource, Bool.not_false, Bool.and_true,
        Bool.or_eq_false_iff] at hgains
    rcases hcallee with hcallee | ⟨hupdate, -⟩
    · rwa [isGroupedAfterNew, hgains.1, Bool.or_false]
    · rw [hgains.2] at hupdate
      cases hupdate

/-- A `new`: its callee has been read as a run, or is an update; the arguments are at the end, or
have been left out. -/
theorem covered_new {callee : Expr}
    (hcallee : Covered source depth 0 callee.isGroupedBeforeLink callee ∨
      callee.isLeadingUpdate = true ∧ Covered source depth 0 false callee)
    (henclosed : callee.span.isEnclosed source = true → Covered source depth 0 true callee)
    (hwritten : 4 ≤ depth ∨ es = [] ∧ span.stop = callee.span.stop)
    (hes : ∀ x ∈ es, Covered source depth 3 (x.isGroupedAt Level.conditional) x) :
    Covered source (depth + 1) 0 false (.new span callee es) := by
  have hown : (new span callee es).gainsArguments = false → 5 ≤ depth + 1 := by
    intro hgains
    rcases hwritten with hdepth | ⟨rfl, hstop⟩
    · exact Nat.succ_le_succ hdepth
    · rw [gainsArguments, hstop, beq_self_eq_true] at hgains
      cases hgains
  have hstepCallee : gainsParentheses source (new span callee es) 0 callee = false →
      1 + groupLevels callee.isGroupedAfterNew + callee.keptLevels source ≤ depth + 1 := by
    intro hgains
    have hcovered : 0 + groupLevels callee.isGroupedAfterNew + callee.keptLevels source ≤ depth :=
      covered_callee hcallee henclosed hgains
    omega
  have hstepItem : ∀ (i : Nat) (y : Expr), es[i]? = some y →
      4 + groupLevels (y.isGroupedAt Level.conditional) + y.keptLevels source ≤ depth + 1 := by
    intro i y hy
    have hitem := hes y (List.mem_of_getElem? hy)
    unfold Covered at hitem
    omega
  exact covered_iff.2 (keptLevels_le hown (forall_getElem?_cons.2
    ⟨hstepCallee, fun i y hy _ => hstepItem i y hy⟩))

/-- A place one level further up takes one level more. -/
theorem Covered.succ (h : Covered source depth above isGrouped e) :
    Covered source (depth + 1) (above + 1) isGrouped e := by
  unfold Covered at h ⊢
  omega

/-- What is read between parentheses has them at the narrowest place. -/
theorem Covered.of_sequence (h : Covered source depth 3 false e) :
    Covered source (depth + 1) 0 true e := by
  have hgroup : groupLevels true = groupLevels false + 4 := rfl
  unfold Covered at h ⊢
  omega

/-- What binds tightly enough needs no parentheses. -/
theorem Covered.of_level {least : Nat} (h : Covered source depth above false e)
    (hlevel : least ≤ e.level) :
    Covered source depth above (e.isGroupedAt least) e := by
  have hgrouped : e.isGroupedAt least = false := decide_eq_false (Nat.not_lt.2 hlevel)
  rwa [hgrouped]

end Expr

namespace Grammar

/-! ## Where no parentheses are needed -/

/-- Operands without parentheses around them, joined by operators that bind at least so tightly. -/
structure HasRoot (least : Nat) (x : Climbed) : Prop where
  logical : x.expr.rootOperator?.bind InfixOperator.logical? = x.bareLogical
  root : Level.unary ≤ x.expr.level ∨
    ∃ inner, x.expr.rootOperator? = some inner ∧ least ≤ inner.precedence

/-- A left operand without parentheses around it, before an operator at the cursor. -/
structure StandsLeft (least : Nat) (left : Climbed) (isBareUnary : Bool) (c : Cursor) : Prop
    extends HasRoot least left where
  unary : left.expr.isUnary = true → isBareUnary = true
  next : ∀ inner ∈ left.expr.rootOperator?, ∀ operator ∈ Token.infixOperator? c.pastBlanks.rest,
    operator.precedence < inner.rightPrecedence

section Roots

variable {least : Nat} {x left : Climbed} {operator : InfixOperator} {isBareUnary : Bool}
  {c : Cursor}

/-- Operands that are joined tightly enough have no parentheses in the text. -/
theorem HasRoot.isGroupedAt_eq_false {level : Nat} (h : HasRoot least x)
    (hlevel : level ≤ 1 + least) (hunary : level ≤ Level.unary) :
    x.expr.isGroupedAt level = false := by
  refine decide_eq_false (Nat.not_lt.2 ?_)
  rcases h.root with hroot | ⟨inner, hinner, hroot⟩
  · exact Nat.le_trans hunary hroot
  · rw [level_of_rootOperator? hinner, InfixOperator.level]
    omega

/-- Operators that do not clash where they were read need no parentheses for it. -/
theorem clashesWith_eq_false
    (hlogical : x.expr.rootOperator?.bind InfixOperator.logical? = x.bareLogical)
    (h : ∀ logical ∈ operator.logical?, x.clashes logical = false) :
    x.expr.clashesWith operator = false := by
  cases operator with
  | binary operator => rfl
  | logical operator =>
    have hclash := h operator rfl
    rw [Climbed.clashes, ← hlogical] at hclash
    cases hexpr : x.expr with
    | logical span inner first second =>
      rw [hexpr] at hclash
      exact hclash
    | _ => rfl

/-- Nor have they as a right operand, if the logical operators do not clash. -/
theorem HasRoot.isGroupedAfter_eq_false (h : HasRoot operator.rightPrecedence x)
    (hclash : ∀ logical ∈ operator.logical?, x.clashes logical = false) :
    x.expr.isGroupedAfter operator = false := by
  have hlevel : operator.rightLevel ≤ Level.unary := by
    have := operator.level_lt_unary
    unfold InfixOperator.rightLevel
    split <;> omega
  rw [isGroupedAfter, clashesWith_eq_false h.logical hclash, Bool.false_or]
  exact h.isGroupedAt_eq_false (Nat.le_of_eq operator.rightLevel_eq) hlevel

/-- What ended before the operator stands to the left of it without parentheses. -/
theorem leftLevel_le {inner : InfixOperator} (h : operator.precedence < inner.rightPrecedence) :
    operator.leftLevel ≤ inner.level := by
  unfold InfixOperator.rightPrecedence at h
  unfold InfixOperator.leftLevel InfixOperator.level
  split at h
  next => split <;> omega
  next hinner =>
    split
    next hoperator =>
      have hless := InfixOperator.precedence_lt_of_not_isRightAssociative hinner hoperator
      omega
    next => omega

/-- Nor as a left operand, if no unary operator is raised to a power either. -/
theorem StandsLeft.isGroupedBefore_eq_false (h : StandsLeft least left isBareUnary c)
    (hoperator : Token.infixOperator? c.pastBlanks.rest = some operator)
    (hexp : ¬(isBareUnary = true ∧ operator = .binary .exp))
    (hclash : ∀ logical ∈ operator.logical?, left.clashes logical = false) :
    left.expr.isGroupedBefore operator = false := by
  have hunary : (operator == .binary .exp && left.expr.isUnary) = false := by
    refine Bool.eq_false_iff.2 fun hboth => hexp ?_
    obtain ⟨heq, hunary⟩ := Bool.and_eq_true_iff.1 hboth
    exact ⟨h.unary hunary, eq_of_beq heq⟩
  rw [isGroupedBefore, hunary, clashesWith_eq_false h.logical hclash, Bool.false_or, Bool.false_or]
  refine decide_eq_false (Nat.not_lt.2 ?_)
  rcases h.root with hroot | ⟨inner, hinner, -⟩
  · have hlevel := operator.level_lt_unary
    refine Nat.le_trans ?_ hroot
    unfold InfixOperator.leftLevel
    split <;> omega
  · rw [level_of_rootOperator? hinner]
    exact leftLevel_le (h.next inner hinner operator hoperator)

/-- An operand with its unary operators, before whatever operator. -/
theorem standsLeft_of_level {e : Expr} (hlevel : Level.unary ≤ e.level)
    (hunary : e.isUnary = true → isBareUnary = true) :
    StandsLeft least ⟨e, none⟩ isBareUnary c := by
  have hroot := rootOperator?_eq_none hlevel
  refine ⟨⟨by rw [hroot]; rfl, Or.inl hlevel⟩, hunary, ?_⟩
  rw [hroot]
  exact nofun

/-- Operands that have been joined, before an operator that the right one has left alone. -/
theorem standsLeft_join {l r : Expr} (hleast : least ≤ operator.precedence)
    (hstops : ∀ next ∈ Token.infixOperator? c.pastBlanks.rest,
      next.precedence < operator.rightPrecedence) :
    StandsLeft least ⟨operator.join l r, operator.logical?⟩ false c := by
  have hroot : (operator.join l r).rootOperator? = some operator := by
    cases operator <;> rfl
  refine ⟨⟨by rw [hroot]; rfl, Or.inr ⟨operator, hroot, hleast⟩⟩, fun h => ?_, ?_⟩
  · cases operator <;> cases h
  · rw [hroot]
    rintro _ ⟨⟩
    exact hstops

end Roots

/-! ## Operands -/

/-- Operands that have been joined without parentheses around them, by operators that bind at least
so tightly. -/
structure IsBare (source : String) (depth least : Nat) (x : Climbed) : Prop where
  covered : Covered source depth 0 false x.expr
  logical : x.expr.rootOperator?.bind InfixOperator.logical? = x.bareLogical
  root : Level.unary ≤ x.expr.level ∨
    ∃ inner, x.expr.rootOperator? = some inner ∧ least ≤ inner.precedence

/-- Operands that have been read in parentheses, or without. -/
def IsJoined (source : String) (depth least : Nat) (x : Climbed) : Prop :=
  Covered source depth 0 true x.expr ∨ IsBare source depth least x

/-- A left operand without parentheses around it, before an operator at the cursor. -/
structure IsLeft (source : String) (depth least : Nat) (left : Climbed) (isBareUnary : Bool)
    (c : Cursor) : Prop extends IsBare source depth least left where
  unary : left.expr.isUnary = true → isBareUnary = true
  next : ∀ inner ∈ left.expr.rootOperator?, ∀ operator ∈ Token.infixOperator? c.pastBlanks.rest,
    operator.precedence < inner.rightPrecedence

/-- A token that has been read in parentheses, or without them and without a unary operator. -/
def IsWhole (source : String) (depth : Nat) (e : Expr) : Prop :=
  Covered source depth 0 true e ∨
    Covered source depth 0 false e ∧ Level.unary ≤ e.level ∧ e.isUnary = false

/-- An operand with its unary operators, of which the first one is at the cursor if it has been read
without parentheses. -/
def IsUnary (source : String) (depth : Nat) (c : Cursor) (e : Expr) : Prop :=
  Covered source depth 0 true e ∨ Covered source depth 0 false e ∧ Level.unary ≤ e.level ∧
    (e.isUnary = true → (Token.unaryOperator? c.pastBlanks.rest).isSome = true)

/-- A run up to the cursor. If a link follows, and only then, digits keep the levels of the
parentheses that the source has around them. -/
structure IsOpenRun (source : String) (depth : Nat) (e : Expr) (c : Cursor) : Prop where
  covered : Covered source depth 0 e.isGroupedBeforeLink e
  linked : ¬c.HasNoLink → Covered source depth 0 (e.keepsGroup source) e

/-- The first part of a run, or an update that no link follows. -/
def IsFirst (source : String) (depth : Nat) (e : Expr) (c : Cursor) : Prop :=
  IsOpenRun source depth e c ∨
    e.isLeadingUpdate = true ∧ Covered source depth 0 false e ∧ c.HasNoLink

variable {source : String} {depth least : Nat} {x left : Climbed} {operator : InfixOperator}
  {isBareUnary : Bool} {c : Cursor} {e : Expr}

/-- What keeps the levels of its parentheses is a run wherever it ends. -/
theorem isOpenRun_of_keepsGroup (h : Covered source depth 0 (e.keepsGroup source) e) :
    IsOpenRun source depth e c :=
  ⟨h.of_keepsGroup, fun _ => h⟩

theorem IsWhole.covered (h : IsWhole source depth e) : Covered source depth 0 false e := by
  rcases h with hgrouped | ⟨hcovered, -, -⟩
  · exact hgrouped.ungrouped
  · exact hcovered

theorem IsBare.hasRoot (h : IsBare source depth least x) : HasRoot least x :=
  ⟨h.logical, h.root⟩

theorem IsLeft.standsLeft (h : IsLeft source depth least left isBareUnary c) :
    StandsLeft least left isBareUnary c :=
  ⟨h.toIsBare.hasRoot, h.unary, h.next⟩

theorem StandsLeft.isLeft (h : StandsLeft least left isBareUnary c)
    (hcovered : Covered source depth 0 false left.expr) :
    IsLeft source depth least left isBareUnary c :=
  ⟨⟨hcovered, h.logical, h.root⟩, h.unary, h.next⟩

theorem IsJoined.covered {level : Nat} (h : IsJoined source depth least x)
    (hlevel : level ≤ 1 + least) (hunary : level ≤ Level.unary) :
    Covered source depth 0 (x.expr.isGroupedAt level) x.expr := by
  rcases h with hgrouped | hbare
  · exact hgrouped.of_grouped _
  · rw [hbare.hasRoot.isGroupedAt_eq_false hlevel hunary]
    exact hbare.covered

/-- A right operand is covered, in parentheses or without. -/
theorem IsJoined.after (h : IsJoined source depth operator.rightPrecedence x)
    (hclash : ∀ logical ∈ operator.logical?, x.clashes logical = false) :
    Covered source depth 0 (x.expr.isGroupedAfter operator) x.expr := by
  rcases h with hgrouped | hbare
  · exact hgrouped.of_grouped _
  · rw [hbare.hasRoot.isGroupedAfter_eq_false hclash]
    exact hbare.covered

/-- A left operand is covered, in parentheses or without. -/
theorem IsLeft.before
    (h : Covered source depth 0 true left.expr ∨ IsLeft source depth least left isBareUnary c)
    (hoperator : Token.infixOperator? c.pastBlanks.rest = some operator)
    (hexp : ¬(isBareUnary = true ∧ operator = .binary .exp))
    (hclash : ∀ logical ∈ operator.logical?, left.clashes logical = false) :
    Covered source depth 0 (left.expr.isGroupedBefore operator) left.expr := by
  rcases h with hgrouped | hleft
  · exact hgrouped.of_grouped _
  · rw [hleft.standsLeft.isGroupedBefore_eq_false hoperator hexp hclash]
    exact hleft.covered

end Grammar

end Estree
