import Estree.Proofs.Grammar.Tolls
import Estree.Proofs.Source.Nesting

/-!
# What has been paid for

What has been read in parentheses has paid for them, and what has not binds as the place demands
(`PaysJoined`, `PaysToken`, `PaysUnary`). In a run two accounts are kept, because the same run may
be the callee of a `new`: there a call on the spine is one more reason for parentheses, and what
pays for them is a point before the call, or the parentheses that the first part of the run was read
in.

> `isGroupedCallee`: whether the run, as it is so far, would be in parentheses as a callee. With a
> call in it, it would.
> `pays_memberLinks`, `pays_callLinks`: one more link adds its cost to both accounts. A call costs
> one more in the account of a callee, unless it has been paid for by the point before it.

A point can only be charged to one access, but it is read before it is known to which. After a first
part that ends in a digit, the point may belong to the digit or to the access. So a first part may
owe what a point at hand will save (`slack`), and the access that takes the point pays this back
(`slack_add_accessDue_le`). Where no access follows there is no point, and nothing is owed
(`slack_of_access?_eq_none`).
-/

open Estree.Expr

namespace Estree

open Text

namespace Grammar

variable {depth : Nat} {c c₁ c' : Cursor} {e : Expr} {es : List Expr}

/-! ## Operands -/

/-- Operands that have been paid for, in parentheses or without. -/
def PaysJoined (spent : Int) (least : Nat) (x : Climbed) : Prop :=
  PaysGroup spent x.expr ∨ x.expr.due ≤ spent ∧ HasRoot least x

/-- A token that has been paid for, in parentheses or without, and then with no unary operator. -/
def PaysToken (spent : Int) (e : Expr) : Prop :=
  PaysGroup spent e ∨ e.due ≤ spent ∧ Level.unary ≤ e.level ∧ e.isUnary = false

/-- An operand with its unary operators that has been paid for. If it is in no parentheses, the
first of its operators is at the cursor. -/
def PaysUnary (spent : Int) (c : Cursor) (e : Expr) : Prop :=
  PaysGroup spent e ∨ e.due ≤ spent ∧ Level.unary ≤ e.level ∧
    (e.isUnary = true → (Token.unaryOperator? c.pastBlanks.rest).isSome = true)

/-- What will be spent less on an access to the object because a point is at hand. -/
def slack (e : Expr) (c : Cursor) : Int :=
  (e.endsInDigit && c.rest.head? == some '.').toNat

/-- The first part of a run that has been paid for as the callee of a `new` has to be, or an update
that no link follows. -/
def PaysFirst (spent : Int) (e : Expr) (c : Cursor) : Prop :=
  Pays (spent + slack e c) e.isGroupedAfterNew e ∨
    e.isLeadingUpdate = true ∧ e.due ≤ spent ∧ c.HasNoLink

variable {least : Nat} {x left : Climbed} {operator : InfixOperator} {isBareUnary : Bool}
  {spent : Int}

/-- A token has paid at least for what stands in its own parentheses. -/
theorem PaysToken.due_le (h : PaysToken spent e) : e.due ≤ spent := by
  rcases h with hgrouped | ⟨hdue, -, -⟩
  · exact hgrouped.ungrouped
  · exact hdue

/-- Joined operands have paid for the parentheses that a place with a level demands. -/
theorem PaysJoined.pays {level : Nat} (h : PaysJoined spent least x) (hlevel : level ≤ 1 + least)
    (hunary : level ≤ Level.unary) : Pays spent (x.expr.isGroupedAt level) x.expr := by
  have hprimary : Level.unary ≤ Level.primary := by decide
  rcases h with hgrouped | ⟨hdue, hroot⟩
  · exact hgrouped.pays fun h => isGroupedAt_of_bareDigits? h (Nat.le_trans hunary hprimary)
  · rw [hroot.isGroupedAt_eq_false hlevel hunary]
    exact pays_false.2 hdue

/-- A right operand has paid for its parentheses behind the operator. -/
theorem PaysJoined.after (h : PaysJoined spent operator.rightPrecedence x)
    (hclash : ∀ logical ∈ operator.logical?, x.clashes logical = false) :
    Pays spent (x.expr.isGroupedAfter operator) x.expr := by
  rcases h with hgrouped | ⟨hdue, hroot⟩
  · exact hgrouped.pays fun h => isGroupedAfter_of_bareDigits? h operator
  · rw [hroot.isGroupedAfter_eq_false hclash]
    exact pays_false.2 hdue

/-- A left operand has paid for its parentheses before the operator. -/
theorem StandsLeft.pays
    (h : PaysGroup spent left.expr ∨ left.expr.due ≤ spent ∧ StandsLeft least left isBareUnary c)
    (hoperator : Token.infixOperator? c.pastBlanks.rest = some operator)
    (hexp : ¬(isBareUnary = true ∧ operator = .binary .exp))
    (hclash : ∀ logical ∈ operator.logical?, left.clashes logical = false) :
    Pays spent (left.expr.isGroupedBefore operator) left.expr := by
  rcases h with hgrouped | ⟨hdue, hleft⟩
  · exact hgrouped.pays fun h => isGroupedBefore_of_bareDigits? h operator
  · rw [hleft.isGroupedBefore_eq_false hoperator hexp hclash]
    exact pays_false.2 hdue

/-! ## Points at hand -/

/-- Nothing is added because a point is at hand. -/
theorem slack_nonneg (e : Expr) (c : Cursor) : 0 ≤ slack e c := Int.natCast_nonneg _

/-- Without a point at hand nothing is saved. -/
theorem slack_eq_zero (h : c.rest.head? ≠ some '.') : slack e c = 0 := by
  have hne : (c.rest.head? == some '.') = false := beq_eq_false_iff_ne.2 h
  rw [slack, hne, Bool.and_false]
  rfl

/-- A point that is at hand is the access. -/
theorem access?_of_point (h : c.rest.head? = some '.') :
    Token.access? c.pastBlanks.rest = some ⟨false, false⟩ := by
  obtain ⟨rest, hrest⟩ := List.head?_eq_some_iff.1 h
  have hc : c.pastBlanks = c := Cursor.pastBlanks_of_cons hrest (by decide)
  rw [hc, hrest]
  rfl

/-- Where no access follows, no point is at hand. -/
theorem slack_of_access?_eq_none (h : Token.access? c.pastBlanks.rest = none) : slack e c = 0 := by
  refine slack_eq_zero fun hpoint => ?_
  rw [access?_of_point hpoint] at h
  cases h

/-- The access pays back what the point at hand has saved. -/
theorem slack_add_accessDue_le {access : Access}
    (h : Token.access? c.pastBlanks.rest = some access) :
    slack e c + accessDue access e ≤ 2 * access.points := by
  have hle := accessDue_le access e
  by_cases hpoint : c.rest.head? = some '.'
  · obtain rfl : access = ⟨false, false⟩ := by
      rw [access?_of_point hpoint] at h
      exact (Option.some.inj h).symm
    rw [slack, accessDue, hpoint]
    show ((e.endsInDigit && true).toNat : Int) + (2 * _ - ((true && e.endsInDigit).toNat : Int)) ≤ _
    rw [Bool.and_true, Bool.true_and]
    omega
  · rw [slack_eq_zero hpoint]
    omega

/-- What the last piece of an object has cost less will be spent less. -/
theorem joint_le_slack {piece : List Char} (hgrouped : e.isGroupedBeforeName = false)
    (hlast : e.text.getLast?.any Char.isDigit = piece.getLast?.any Char.isDigit) :
    joint piece c.rest ≤ slack e c := by
  by_cases hpoint : c.rest.head? = some '.'
  · rw [slack, hpoint, endsInDigit, hgrouped, hlast, joint]
    cases piece.getLast?.any Char.isDigit <;> simp [hpoint]
  · rw [joint_eq_zero (Or.inr hpoint)]
    exact slack_nonneg e c

/-! ## Runs -/

/-- Whether the run would be in parentheses as the callee of a `new`. With an optional link it is
none. -/
def isGroupedCallee (links : Links) : Bool :=
  links.node.isGroupedBeforeLink || (!links.hasOptional && links.node.hasCallInSpine)

variable {before after : Links}

/-- A run without optional links is grouped as its node is. -/
theorem isGroupedCallee_eq {links : Links} (h : links.hasOptional = false) :
    isGroupedCallee links = links.node.isGroupedAfterNew := by
  rw [isGroupedCallee, h, isGroupedBeforeLink, isGroupedAfterNew]
  cases links.node.isChain <;> cases links.node.hasCallInSpine <;>
    cases links.node.isGroupedAt Level.call <;> rfl

/-- What is in parentheses before a link has no call on its spine. -/
theorem hasCallInSpine_of_isGroupedBeforeLink (h : e.isGroupedBeforeLink = true) :
    e.hasCallInSpine = false := by
  cases e <;> first | rfl | cases h

/-- What is due for one more access. -/
theorem due_memberLinks (before : Links) (property : Expr) (access : Access) (stop : Nat) :
    (memberLinks before property access stop).node.due =
      before.node.isGroupedBeforeLink.toNat + before.node.due +
        (accessDue access before.node + property.due) :=
  rfl

/-- What is due for one more call. -/
theorem due_callLinks (before : Links) (arguments : List Expr) (optional : Bool) (stop : Nat) :
    (callLinks before arguments optional stop).node.due =
      before.node.isGroupedBeforeLink.toNat + before.node.due +
        (2 * optional.toNat + (argumentsToll arguments + dueOfList arguments)) :=
  rfl

/-- One more access needs no parentheses that the run before it has not needed. -/
theorem isGroupedCallee_memberLinks (before : Links) (property : Expr) (access : Access)
    (stop : Nat) :
    (isGroupedCallee (memberLinks before property access stop)).toNat +
        before.node.isGroupedBeforeLink.toNat ≤ (isGroupedCallee before).toNat := by
  have hafter : isGroupedCallee (memberLinks before property access stop) =
      (!(before.hasOptional || access.optional) && before.node.hasCallInSpine) := rfl
  rw [hafter, isGroupedCallee]
  cases hgrouped : before.node.isGroupedBeforeLink with
  | true =>
    rw [hasCallInSpine_of_isGroupedBeforeLink hgrouped]
    simp
  | false => cases before.hasOptional <;> cases access.optional <;> simp

/-- One more call needs parentheses, unless it is optional. -/
theorem isGroupedCallee_callLinks (before : Links) (arguments : List Expr) (optional : Bool)
    (stop : Nat) :
    (isGroupedCallee (callLinks before arguments optional stop)).toNat +
        before.node.isGroupedBeforeLink.toNat + optional.toNat ≤
      (isGroupedCallee before).toNat + 1 := by
  have hafter : isGroupedCallee (callLinks before arguments optional stop) =
      (!(before.hasOptional || optional) && true) := rfl
  rw [hafter, isGroupedCallee]
  cases before.node.isGroupedBeforeLink <;> cases before.hasOptional <;> cases optional <;> simp

/-- A complete run is a token. -/
theorem paysToken_finish {run : Links} (h : Pays spent run.node.isGroupedBeforeLink run.node) :
    PaysToken spent run.finish := by
  have hdue := h.ungrouped
  unfold Links.finish
  split
  next => exact Or.inr ⟨hdue, show Level.unary ≤ Level.call by decide, rfl⟩
  next =>
    cases hgrouped : run.node.isGroupedBeforeLink with
    | true =>
      rw [hgrouped] at h
      exact Or.inl (Pays.weaken h nofun)
    | false =>
      obtain ⟨-, hlevel⟩ := ungroupedBeforeLink hgrouped
      have hcall : Level.unary ≤ Level.call := by decide
      exact Or.inr ⟨hdue, Nat.le_trans hcall hlevel, isUnary_of_level hlevel⟩

/-- A complete token, whether its first part is a run or an update without links. -/
theorem PaysFirst.token {primary : Expr} {run : Links} (h : PaysFirst spent primary c)
    (hrun : Derives depth (.links ⟨primary, false⟩) c run c')
    (hlinks : Pays (spent + slack primary c) primary.isGroupedBeforeLink primary →
      Pays (spent + (c.balance - c'.balance)) run.node.isGroupedBeforeLink run.node) :
    PaysToken (spent + (c.balance - c'.balance)) run.finish := by
  rcases h with hfirst | ⟨hupdate, hdue, hno⟩
  · exact paysToken_finish (hlinks (hfirst.weaken isGroupedBeforeLink_of_isGroupedAfterNew))
  · obtain ⟨rfl, rfl⟩ := links_eq_of_hasNoLink hrun hno
    have hsame : primary.due ≤ spent + (c'.balance - c'.balance) := by omega
    cases primary with
    | update span operator leading argument =>
      obtain rfl : leading = true := hupdate
      exact Or.inr ⟨hsame, Nat.le_refl _, rfl⟩
    | _ => cases hupdate

/-- One more member access. -/
theorem pays_memberLinks {paid : Int} {property : Expr} {access : Access} {stop : Nat}
    (hproperty : property.due ≤ spent) :
    (Pays paid before.node.isGroupedBeforeLink before.node →
      Pays (paid + (accessDue access before.node + spent))
        (memberLinks before property access stop).node.isGroupedBeforeLink
        (memberLinks before property access stop).node) ∧
    (Pays paid (isGroupedCallee before) before.node →
      Pays (paid + (accessDue access before.node + spent))
        (isGroupedCallee (memberLinks before property access stop))
        (memberLinks before property access stop).node) := by
  have hdue := due_memberLinks before property access stop
  have hcallee := isGroupedCallee_memberLinks before property access stop
  have hlink : (memberLinks before property access stop).node.isGroupedBeforeLink = false := rfl
  refine ⟨fun hbefore => ?_, fun hbefore => ?_⟩
  · rw [hlink]
    unfold Pays at hbefore ⊢
    rw [Bool.toNat_false]
    omega
  · unfold Pays at hbefore ⊢
    omega

/-- One more call, with the point that stands before an optional one or hands over to it. -/
theorem pays_callLinks {paid : Int} {optional : Bool} {stop : Nat}
    (hes : argumentsToll es + dueOfList es ≤ spent) :
    (Pays paid before.node.isGroupedBeforeLink before.node →
      Pays (paid + (2 * optional.toNat + spent))
        (callLinks before es optional stop).node.isGroupedBeforeLink
        (callLinks before es optional stop).node) ∧
    (Pays paid (isGroupedCallee before) before.node →
      Pays (paid + (1 + optional.toNat + spent))
        (isGroupedCallee (callLinks before es optional stop))
        (callLinks before es optional stop).node) := by
  have hdue := due_callLinks before es optional stop
  have hcallee := isGroupedCallee_callLinks before es optional stop
  have hlink : (callLinks before es optional stop).node.isGroupedBeforeLink = false := rfl
  refine ⟨fun hbefore => ?_, fun hbefore => ?_⟩
  · rw [hlink]
    unfold Pays at hbefore ⊢
    rw [Bool.toNat_false]
    omega
  · unfold Pays at hbefore ⊢
    omega

/-- A name costs nothing, but for a point after it, and nothing is due for it. -/
theorem balance_propertyName {property : Expr}
    (h : Leaf.propertyName c.pastBlanks = .ok property c') (before : Links) {access : Access}
    (hcomputed : access.computed = false) (stop : Nat) :
    property.due ≤
      c.balance - c'.balance + slack (memberLinks before property access stop).node c' := by
  obtain ⟨hne, rfl, rfl⟩ := Leaf.propertyName_eq_ok.1 h
  have hword := Cursor.balance_word (c := c.pastBlanks) rfl
  rw [c.balance_pastBlanks] at hword
  generalize leadingWord c.pastBlanks.rest = word at hne hword ⊢
  have hlast : ∀ span : Span, (memberLinks before (.identifier span (String.ofList word)) access
      stop).node.text.getLast?.any Char.isDigit = word.getLast?.any Char.isDigit := fun span => by
    rw [memberLinks, hcomputed, text]
    show (Source.group before.node.isGroupedBeforeName before.node.text ++ (_ ++
      (String.ofList word).toList)).getLast?.any Char.isDigit = _
    rw [String.toList_ofList, ← List.append_assoc, List.getLast?_append,
      List.getLast?_eq_some_getLast hne]
    rfl
  have hslack := joint_le_slack (c := c.pastBlanks.skip word.length) rfl
    (hlast ⟨c.pastBlanks.position, c.pastBlanks.position + utf8Size word⟩)
  show (0 : Int) ≤ _
  omega

/-- A number costs what it is spelled with, but for a point after it. -/
theorem balance_number (hstart : Pattern.numberStart.isAtStart c.rest = true)
    (h : Leaf.number c = .ok e c') :
    e.due ≤ c.balance - c'.balance + slack e c' ∧ e.isGroupedAfterNew = false := by
  obtain ⟨text, decimal, hnumeral, -, hpass, rfl⟩ := Leaf.number_eq_ok hstart h
  have hparen : ∀ x ∈ text, x ≠ '(' := by
    rintro x hx rfl
    exact (isPlain_of_mem_numeral hnumeral hx).1.2 (by decide)
  have hc := Cursor.balance_passes hpass hparen
  have hslack : joint text c'.rest ≤ slack (.literal ⟨c.position, c'.position⟩ (String.ofList text)
      (.number (.ofDecimal decimal))) c' := by
    by_cases hdigits : text.all Char.isDigit = true
    · rw [joint_eq_zero (Or.inr (Leaf.head?_ne_point h (by rwa [String.toList_ofList])))]
      exact slack_nonneg _ c'
    · refine joint_le_slack ?_ ?_
      · rw [isGroupedBeforeName, bareDigits?, String.toList_ofList, if_neg hdigits]
        rfl
      · rw [Expr.text, String.toList_ofList]
  refine ⟨?_, rfl⟩
  show Text.balance (String.ofList text).toList ≤ _
  rw [String.toList_ofList]
  omega

end Grammar

end Estree
