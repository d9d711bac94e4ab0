import Estree.Proofs.Expr.Nodes
import Estree.Proofs.Source.Text

/-!
# Levels of a text

How deep is the text of a tree? Depth is a maximum over the ways from the root of the tree down, and
at each node of a way levels are opened for the brackets that stand there. `Expr.peak` is such a
maximum for whatever is counted at the end of a way (`own`) and at the nodes before it (`next`):

> `peak_le_iff`: the most that is met is bounded by `k` exactly if the end of a way at the root is,
> and each way that goes on with a node right below.

Every bound on depth is proved through this equivalence, so no proof follows a way by itself: it is
an induction over the tree in which each node tells what it adds.

> `levels`: the levels that the grammar opens to read the text again, where a primary expression is
> read. A list between brackets opens some even if it is empty, as an expression is looked for in it
> (`ownLevels`); between a node and one right below it are those of the production in between and
> those of parentheses, where the text has them (`stepLevels`).
-/

namespace Estree

namespace Expr

variable {own : Expr → Nat} {next : Expr → Nat → Expr → Nat → Nat} {e : Expr} {k : Nat}

/-! ## Ways down a tree -/

mutual

/-- The most that is met on a way from the root down: `own` is met at the node where the way ends.
At every other one `next` tells what is met on the ways that go on with the next node, from the
place of that among the nodes right below and from the most that is met there. -/
def peak (own : Expr → Nat) (next : Expr → Nat → Expr → Nat → Nat) : Expr → Nat
  | e@(literal ..) | e@(identifier ..) | e@(this _) => own e
  | e@(array _ elements) => max (own e) (peakOfSlots own next (next e) elements)
  | e@(sequence _ expressions) => max (own e) (peakOfList own next (next e) expressions)
  | e@(conditional _ test consequent alternate) =>
    max (own e) (max (next e 0 test (test.peak own next))
      (max (next e 1 consequent (consequent.peak own next))
        (next e 2 alternate (alternate.peak own next))))
  | e@(new _ callee arguments) | e@(call _ callee arguments _) =>
    max (own e) (max (next e 0 callee (callee.peak own next))
      (peakOfList own next (fun i => next e (i + 1)) arguments))
  | e@(member _ first second _ _) | e@(binary _ _ first second) | e@(logical _ _ first second) =>
    max (own e) (max (next e 0 first (first.peak own next))
      (next e 1 second (second.peak own next)))
  | e@(chain _ only) | e@(update _ _ _ only) | e@(unary _ _ _ only) =>
    max (own e) (next e 0 only (only.peak own next))

/-- The most that is met on the ways that go on with a tree of a list. -/
def peakOfList (own : Expr → Nat) (next : Expr → Nat → Expr → Nat → Nat)
    (here : Nat → Expr → Nat → Nat) : List Expr → Nat
  | [] => 0
  | x :: rest =>
    max (here 0 x (x.peak own next)) (peakOfList own next (fun i => here (i + 1)) rest)

/-- The most that is met on the ways that go on with an element of an array. -/
def peakOfSlots (own : Expr → Nat) (next : Expr → Nat → Expr → Nat → Nat)
    (here : Nat → Expr → Nat → Nat) : List (Option Expr) → Nat
  | [] => 0
  | none :: rest => peakOfSlots own next here rest
  | some x :: rest =>
    max (here 0 x (x.peak own next)) (peakOfSlots own next (fun i => here (i + 1)) rest)

end

/-- Something holds of all trees of a list at their places if it does of the first one and the
others. -/
theorem forall_getElem?_cons {P : Nat → Expr → Prop} {es : List Expr} :
    (∀ i y, (e :: es)[i]? = some y → P i y) ↔ P 0 e ∧ ∀ i y, es[i]? = some y → P (i + 1) y := by
  constructor
  · intro h
    exact ⟨h 0 e rfl, fun i y hy => h (i + 1) y hy⟩
  · rintro ⟨hfirst, hrest⟩ i y hy
    cases i with
    | zero =>
      cases hy
      exact hfirst
    | succ i => exact hrest i y hy

/-- Nothing is to be shown of the trees in an empty list. -/
theorem forall_getElem?_nil {P : Nat → Expr → Prop} :
    ∀ i y, ([] : List Expr)[i]? = some y → P i y := nofun

/-- The bound over a list is one for each tree in it, at its index. -/
theorem peakOfList_le_iff {here : Nat → Expr → Nat → Nat} {es : List Expr} :
    peakOfList own next here es ≤ k ↔
      ∀ i y, es[i]? = some y → here i y (y.peak own next) ≤ k := by
  induction es generalizing here with
  | nil => exact iff_of_true (Nat.zero_le k) forall_getElem?_nil
  | cons e rest ih => rw [peakOfList, Nat.max_le, ih, forall_getElem?_cons]

/-- Holes are not counted, in the index neither: the elements are the trees among them. -/
theorem peakOfSlots_eq {here : Nat → Expr → Nat → Nat} (elements : List (Option Expr)) :
    peakOfSlots own next here elements = peakOfList own next here (elements.filterMap id) := by
  induction elements generalizing here with
  | nil => rfl
  | cons slot rest ih =>
    cases slot with
    | none => exact ih
    | some e =>
      rw [peakOfSlots, ih]
      rfl

/-- The most that is met is bounded by what bounds the end of every way and the ways on. -/
theorem peak_le_iff : e.peak own next ≤ k ↔
    own e ≤ k ∧ ∀ i y, e.children[i]? = some y → next e i y (y.peak own next) ≤ k := by
  cases e with
  | literal | identifier | this =>
    rw [peak]
    exact (and_iff_left forall_getElem?_nil).symm
  | array span elements => rw [peak, peakOfSlots_eq, Nat.max_le, peakOfList_le_iff, children]
  | sequence span es => rw [peak, Nat.max_le, peakOfList_le_iff, children]
  | new span callee es | call span callee es optional =>
    rw [peak, Nat.max_le, Nat.max_le, peakOfList_le_iff, children, forall_getElem?_cons]
  | conditional =>
    rw [peak, Nat.max_le, Nat.max_le, Nat.max_le, children, forall_getElem?_cons,
      forall_getElem?_cons, forall_getElem?_cons]
    simp
  | member | binary | logical =>
    rw [peak, Nat.max_le, Nat.max_le, children, forall_getElem?_cons, forall_getElem?_cons]
    simp
  | chain | update | unary =>
    rw [peak, Nat.max_le, children, forall_getElem?_cons]
    simp

/-! ## The levels of the text -/

/-- The levels that parentheses open: an expression, its operands, an operand and what is in the
parentheses. -/
def groupLevels (isGrouped : Bool) : Nat :=
  4 * isGrouped.toNat

/-- The levels of a list between brackets, which is at least looked for an expression. -/
def ownLevels : Expr → Nat
  | array .. | new .. => 5
  | call .. => 4
  | _ => 1

/-- The levels between a node and one right below it in the text. -/
def stepLevels : Expr → Nat → Expr → Nat
  | array .., _, item => 4 + groupLevels (item.isGroupedAt Level.conditional)
  | sequence .., _, item => groupLevels (item.isGroupedAt Level.conditional)
  | conditional .., 0, test => groupLevels (test.isGroupedAt (Level.conditional + 1))
  | conditional .., _, branch => 1 + groupLevels (branch.isGroupedAt Level.conditional)
  | new .., 0, callee => 1 + groupLevels callee.isGroupedAfterNew
  | new .., _, item => 4 + groupLevels (item.isGroupedAt Level.conditional)
  | call .., 0, callee => groupLevels callee.isGroupedBeforeLink
  | call .., _, item => 3 + groupLevels (item.isGroupedAt Level.conditional)
  | member _ _ _ true _, 0, object => groupLevels object.isGroupedBeforeLink
  | member _ _ _ true _, _, _ => 3
  | member _ _ _ false _, 0, object => groupLevels object.isGroupedBeforeName
  | member _ _ _ false _, _, _ | chain .., _, _ => 0
  | update _ _ leading _, _, _ => leading.toNat
  | unary .., _, argument => 1 + groupLevels (argument.isGroupedAt Level.unary)
  | binary _ operator _ _, 0, left => groupLevels (left.isGroupedBefore (.binary operator))
  | binary _ operator _ _, _, right => 1 + groupLevels (right.isGroupedAfter (.binary operator))
  | logical _ operator _ _, 0, left => groupLevels (left.isGroupedBefore (.logical operator))
  | logical _ operator _ _, _, right => 1 + groupLevels (right.isGroupedAfter (.logical operator))
  | literal .., _, _ | identifier .., _, _ | this .., _, _ => 0

/-- The levels that the text of a tree opens where a primary expression is read. -/
def levels : Expr → Nat :=
  peak ownLevels fun e i x below => e.stepLevels i x + below

/-- The levels of a text, node by node. -/
theorem levels_le_iff : e.levels ≤ k ↔
    e.ownLevels ≤ k ∧ ∀ i y, e.children[i]? = some y → e.stepLevels i y + y.levels ≤ k :=
  peak_le_iff

/-- Every node opens a level on its own. -/
theorem ownLevels_pos (e : Expr) : 0 < e.ownLevels := by
  cases e <;> exact Nat.succ_pos _

theorem levels_pos (e : Expr) : 0 < e.levels :=
  Nat.lt_of_lt_of_le e.ownLevels_pos (levels_le_iff.1 (Nat.le_refl _)).1

end Expr

end Estree
