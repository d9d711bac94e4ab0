import Estree.Proofs.Grammar.Points
import Estree.Proofs.Source.Text
import Estree.Proofs.Text.Balance

/-!
# What the parentheses of a tree are due

`Expr.due` is what the text of a tree costs by `Text.balance`: two for each access by a point, less
one right after a digit, and one for each operand in parentheses. Arguments count one, or nothing if
they are digits alone, and empty ones minus one. Digits in parentheses before a name count nothing.

The amount is defined along the tree, not on its text, so that it can be compared from two sides:

> what is written for the tree costs as much (`Expr.costs_text`),
> and whatever text is read as the tree costs at least as much (`Grammar.due_le_balance`).

The second half of the module is the account that the reader keeps on the way. `Pays spent isGrouped
e` says that enough has been spent for a tree at a place, with its parentheses if it has them there.
A tree that was read in parentheses has paid for them and may stand in parentheses anywhere; only
digits alone have not paid, as their parentheses are free, but digits alone need none at most places
(`isGroupedAt_of_bareDigits?` and the lemmas beside it). `PaysGroup` is this case, and
`PaysGroup.pays` spends it at a place.
-/

namespace Estree

/-- A primary expression may stand on both sides of every operator. -/
theorem InfixOperator.operandLevels_le (operator : InfixOperator) :
    operator.leftLevel ≤ Level.primary ∧ operator.rightLevel ≤ Level.primary := by
  rcases operator with operator | operator <;> cases operator <;> decide

namespace Expr

/-- What the parentheses around arguments cost. -/
def argumentsToll : List Expr → Int
  | [] => -1
  | [e] => if e.bareDigits?.isSome then 0 else 1
  | _ => 1

/-- Whether the text of an object ends in a digit that a point may follow. -/
def endsInDigit (e : Expr) : Bool :=
  !e.isGroupedBeforeName && e.text.getLast?.any Char.isDigit

/-- What an access to an object costs, apart from the property. -/
def accessDue (access : Access) (object : Expr) : Int :=
  2 * access.points - (access == ⟨false, false⟩ && object.endsInDigit).toNat

mutual

/-- What the text of the tree costs. -/
def due : Expr → Int
  | literal _ raw _ => Text.balance raw.toList
  | identifier .. | this _ => 0
  | array _ elements => dueOfSlots elements
  | sequence _ expressions => dueOfList expressions
  | conditional _ test consequent alternate =>
    (test.isGroupedAt (Level.conditional + 1)).toNat + test.due +
      ((consequent.isGroupedAt Level.conditional).toNat + consequent.due +
        ((alternate.isGroupedAt Level.conditional).toNat + alternate.due))
  | new _ callee arguments =>
    callee.isGroupedAfterNew.toNat + callee.due + (argumentsToll arguments + dueOfList arguments)
  | call _ callee arguments optional =>
    callee.isGroupedBeforeLink.toNat + callee.due +
      (2 * optional.toNat + (argumentsToll arguments + dueOfList arguments))
  | member _ object property computed optional =>
    object.isGroupedBeforeLink.toNat + object.due +
      (accessDue ⟨optional, computed⟩ object + property.due)
  | chain _ expression => expression.due
  | update _ _ _ argument => argument.due
  | unary _ _ _ argument => (argument.isGroupedAt Level.unary).toNat + argument.due
  | binary _ operator left right =>
    (left.isGroupedBefore (.binary operator)).toNat + left.due +
      ((right.isGroupedAfter (.binary operator)).toNat + right.due)
  | logical _ operator left right =>
    (left.isGroupedBefore (.logical operator)).toNat + left.due +
      ((right.isGroupedAfter (.logical operator)).toNat + right.due)

/-- What the texts of expressions between commas cost. -/
def dueOfList : List Expr → Int
  | [] => 0
  | e :: rest => (e.isGroupedAt Level.conditional).toNat + e.due + dueOfList rest

/-- What the texts of elements between commas cost. -/
def dueOfSlots : List (Option Expr) → Int
  | [] => 0
  | none :: rest => dueOfSlots rest
  | some e :: rest => (e.isGroupedAt Level.conditional).toNat + e.due + dueOfSlots rest

end

variable {e : Expr} {es : List Expr} {spent spent' : Int} {isGrouped isGrouped' : Bool}

/-! ## Accesses -/

/-- An access costs at most two for each of its points. -/
theorem accessDue_le (access : Access) (object : Expr) :
    accessDue access object ≤ 2 * access.points := by
  unfold accessDue
  omega

/-- The text of an access costs two for each of its points. -/
theorem balance_access (access : Access) (rest : List Char) :
    Text.balance (access.text.toList ++ rest) = 2 * access.points + Text.balance rest := by
  rcases access with ⟨_ | _, _ | _⟩
  · rfl
  · show Text.balance ('[' :: rest) = 2 * (0 : Nat) + Text.balance rest
    rw [Text.balance_cons (by decide)]
    omega
  · show Text.balance ('?' :: '.' :: rest) = 2 * (1 : Nat) + Text.balance rest
    rw [Text.balance_cons (by decide)]
    rfl
  · show Text.balance ('?' :: '.' :: '[' :: rest) = 2 * (1 : Nat) + Text.balance rest
    rw [Text.balance_cons (by decide)]
    show 2 + Text.balance ('[' :: rest) = _
    rw [Text.balance_cons (by decide)]
    rfl

/-- An access by a point pays for parentheses, and for the point of an optional call. -/
theorem le_accessDue {access : Access} (h : access.computed = false) (object : Expr) :
    1 + access.optional.toNat ≤ accessDue access object := by
  have hle := Bool.toNat_le object.endsInDigit
  rcases access with ⟨_ | _, _ | _⟩
  · show (1 : Int) + (0 : Nat) ≤ 2 * (1 : Nat) - object.endsInDigit.toNat
    omega
  · cases h
  · show (1 : Int) + (1 : Nat) ≤ 2 * (1 : Nat) - (0 : Nat)
    omega
  · cases h

/-! ## Digits alone -/

/-- Only a number is written as digits alone. -/
theorem exists_literal_of_bareDigits? (h : e.bareDigits?.isSome = true) :
    ∃ span raw value, e = literal span raw (.number value) := by
  cases e with
  | literal span raw value =>
    cases value with
    | number value => exact ⟨span, raw, value, rfl⟩
    | _ => cases h
  | _ => cases h

/-- Digits are in parentheses nowhere but before a name. -/
theorem isGroupedAt_of_bareDigits? (h : e.bareDigits?.isSome = true) {least : Nat}
    (hleast : least ≤ Level.primary) : e.isGroupedAt least = false := by
  obtain ⟨span, raw, value, rfl⟩ := exists_literal_of_bareDigits? h
  exact decide_eq_false (Nat.not_lt.2 hleast)

/-- Digits alone need no parentheses as a callee. -/
theorem isGroupedAfterNew_of_bareDigits? (h : e.bareDigits?.isSome = true) :
    e.isGroupedAfterNew = false := by
  obtain ⟨span, raw, value, rfl⟩ := exists_literal_of_bareDigits? h
  rfl

/-- A callee without parentheses would need none before a link either. -/
theorem isGroupedBeforeLink_of_isGroupedAfterNew (h : e.isGroupedAfterNew = false) :
    e.isGroupedBeforeLink = false := by
  rw [isGroupedAfterNew, Bool.or_eq_false_iff, Bool.or_eq_false_iff] at h
  rw [isGroupedBeforeLink, h.1.1, h.2]
  rfl

/-- Digits alone need no parentheses before every link. -/
theorem isGroupedBeforeLink_of_bareDigits? (h : e.bareDigits?.isSome = true) :
    e.isGroupedBeforeLink = false :=
  isGroupedBeforeLink_of_isGroupedAfterNew (isGroupedAfterNew_of_bareDigits? h)

/-- Digits alone need no parentheses before an operator. -/
theorem isGroupedBefore_of_bareDigits? (h : e.bareDigits?.isSome = true)
    (operator : InfixOperator) : e.isGroupedBefore operator = false := by
  have hleft := isGroupedAt_of_bareDigits? h operator.operandLevels_le.1
  obtain ⟨span, raw, value, rfl⟩ := exists_literal_of_bareDigits? h
  rw [isGroupedBefore, hleft]
  cases operator with
  | binary operator => simp [isUnary, clashesWith]
  | logical operator => simp [isUnary, clashesWith]

/-- Nor do they behind one. -/
theorem isGroupedAfter_of_bareDigits? (h : e.bareDigits?.isSome = true)
    (operator : InfixOperator) : e.isGroupedAfter operator = false := by
  have hright := isGroupedAt_of_bareDigits? h operator.operandLevels_le.2
  obtain ⟨span, raw, value, rfl⟩ := exists_literal_of_bareDigits? h
  rw [isGroupedAfter, hright]
  cases operator with
  | binary operator => rfl
  | logical operator => rfl

/-! ## Paying -/

/-- Enough has been spent for the tree, in parentheses or not. -/
def Pays (spent : Int) (isGrouped : Bool) (e : Expr) : Prop :=
  isGrouped.toNat + e.due ≤ spent

/-- The tree has been read in parentheses, and they have been paid unless it is digits alone. -/
def PaysGroup (spent : Int) (e : Expr) : Prop :=
  Pays spent (!e.bareDigits?.isSome) e

/-- Without parentheses only the tree has to be paid for. -/
theorem pays_false : Pays spent false e ↔ e.due ≤ spent := by
  unfold Pays
  rw [Bool.toNat_false]
  omega

/-- What pays for a tree in parentheses pays for the tree. -/
theorem Pays.ungrouped (h : Pays spent isGrouped e) : e.due ≤ spent := by
  unfold Pays at h
  omega

/-- Who has spent more has paid as well. -/
theorem Pays.of_le (h : Pays spent isGrouped e) (hle : spent ≤ spent') : Pays spent' isGrouped e :=
  Int.le_trans h hle

/-- Where fewer parentheses are demanded, no more are paid for. -/
theorem Pays.weaken (h : Pays spent isGrouped e) (himp : isGrouped = false → isGrouped' = false) :
    Pays spent isGrouped' e := by
  unfold Pays at h ⊢
  cases isGrouped with
  | false =>
    rw [himp rfl]
    exact h
  | true =>
    have hle : isGrouped'.toNat ≤ true.toNat := by
      cases isGrouped' <;> decide
    omega

/-- Parentheses that are there need not be demanded. -/
theorem PaysGroup.pays (h : PaysGroup spent e)
    (hdigits : e.bareDigits?.isSome = true → isGrouped = false) : Pays spent isGrouped e := by
  refine Pays.weaken h fun hnone => hdigits ?_
  rw [Bool.not_eq_false'] at hnone
  exact hnone

/-- What binds tightly enough is in no parentheses. -/
theorem pays_of_level {least : Nat} (h : e.due ≤ spent) (hlevel : least ≤ e.level) :
    Pays spent (e.isGroupedAt least) e := by
  have hgrouped : e.isGroupedAt least = false := decide_eq_false (Nat.not_lt.2 hlevel)
  rw [hgrouped]
  exact pays_false.2 h

end Expr

end Estree
