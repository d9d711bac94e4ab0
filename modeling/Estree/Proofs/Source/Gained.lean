import Estree.Proofs.Source.Levels
import Estree.Proofs.Text.Enclosed

/-!
# Brackets that a text gains

The text of a tree has some brackets in any case that the source may have left out: the argument
list of a `new`, the parentheses around its callee if a call would be met in it, and those around
digits before a name. The tree has no record of them, so it takes the source to tell whether they
are *gained*: the span of a `new` without an argument list ends where that of its callee does
(`gainsArguments`), and parentheses that the source had stand around the piece of the node
(`gainsParentheses`).

A way down the tree that meets a gained bracket may be deeper in the text than anything was in the
source, and a way that meets none may not. So the ways are parted:

> `keptLevels source`: the levels of the text on the ways that meet no gained bracket.
> `gainedLevels source`: the levels of the text on the other ways, and zero if there is none.

Nothing is lost by that: each way is of one kind or the other (`levels_le`). What has to be shown of
a tree that has been read is therefore that its *kept* levels have been opened for it, and there
every bracket of the text is one of the source. The gained levels are no more than the text needs on
those ways, and a tree of which no node gains a bracket has none (`gainedLevels_eq_zero_iff`).
-/

namespace Estree

namespace Expr

variable {source : String} {e : Expr} {k : Nat}

/-! ## Brackets that are gained -/

/-- Whether the node is `++` or `--` before a place. -/
def isLeadingUpdate : Expr → Bool
  | update _ _ leading _ => leading
  | _ => false

/-- Whether the text has an argument list that a `new` was read without: its span ends where that of
its callee does. -/
def gainsArguments : Expr → Bool
  | new span callee [] => span.stop == callee.span.stop
  | _ => false

/-- Whether the text has parentheses around a node right below that the source has not. A callee
after `new` that is an update or has a call on its spine gets them, and so do digits before a
name. -/
def gainsParentheses (source : String) : Expr → Nat → Expr → Bool
  | new .., 0, callee =>
    (callee.hasCallInSpine || callee.isLeadingUpdate) && !callee.span.isEnclosed source
  | member _ _ _ false _, 0, object =>
    object.bareDigits?.isSome && !object.span.isEnclosed source
  | _, _, _ => false

section Places

variable {span : Span} {callee object property : Expr} {es : List Expr} {optional : Bool}

/-- A callee with a call on its spine gains parentheses if it is not enclosed. -/
theorem gainsParentheses_callee : gainsParentheses source (new span callee es) 0 callee =
    ((callee.hasCallInSpine || callee.isLeadingUpdate) && !callee.span.isEnclosed source) := rfl

/-- Digits before a name gain them if they are not enclosed. -/
theorem gainsParentheses_object :
    gainsParentheses source (member span object property false optional) 0 object =
      (object.bareDigits?.isSome && !object.span.isEnclosed source) := rfl

end Places

/-- The levels of the text on the ways that meet no gained bracket. -/
def keptLevels (source : String) : Expr → Nat :=
  peak (fun e => if e.gainsArguments then 0 else e.ownLevels) fun e i x below =>
    if e.gainsParentheses source i x then 0 else e.stepLevels i x + below

/-- The levels of the text on the ways that meet a gained bracket; zero if there are none. -/
def gainedLevels (source : String) : Expr → Nat :=
  peak (fun e => if e.gainsArguments then e.ownLevels else 0) fun e i x below =>
    if e.gainsParentheses source i x then e.stepLevels i x + x.levels
    else if below = 0 then 0
    else e.stepLevels i x + below

/-- The kept levels, node by node: a way ends where a bracket is gained. -/
theorem keptLevels_le_iff : e.keptLevels source ≤ k ↔
    (if e.gainsArguments then 0 else e.ownLevels) ≤ k ∧ ∀ i y, e.children[i]? = some y →
      (if e.gainsParentheses source i y then 0
        else e.stepLevels i y + y.keptLevels source) ≤ k :=
  peak_le_iff

/-- The gained levels, node by node: below a gained bracket all ways count, and elsewhere those that
meet one further down. -/
theorem gainedLevels_le_iff : e.gainedLevels source ≤ k ↔
    (if e.gainsArguments then e.ownLevels else 0) ≤ k ∧ ∀ i y, e.children[i]? = some y →
      (if e.gainsParentheses source i y then e.stepLevels i y + y.levels
        else if y.gainedLevels source = 0 then 0
        else e.stepLevels i y + y.gainedLevels source) ≤ k :=
  peak_le_iff

/-- Only the steps that gain no bracket have to be followed for the kept levels. -/
theorem keptLevels_le (hown : e.gainsArguments = false → e.ownLevels ≤ k)
    (hsteps : ∀ i y, e.children[i]? = some y → e.gainsParentheses source i y = false →
      e.stepLevels i y + y.keptLevels source ≤ k) :
    e.keptLevels source ≤ k := by
  refine keptLevels_le_iff.2 ⟨?_, fun i y hy => ?_⟩
  · cases hgains : e.gainsArguments with
    | true => exact Nat.zero_le k
    | false => exact hown hgains
  · cases hgains : e.gainsParentheses source i y with
    | true => exact Nat.zero_le k
    | false => exact hsteps i y hy hgains

/-- Whatever is gained, it is enough to follow all steps. -/
theorem keptLevels_le_of_forall (hown : e.ownLevels ≤ k)
    (hsteps : ∀ i y, e.children[i]? = some y → e.stepLevels i y + y.keptLevels source ≤ k) :
    e.keptLevels source ≤ k :=
  keptLevels_le (fun _ => hown) fun i y hy _ => hsteps i y hy

/-- Every way of the text meets a gained bracket or meets none. -/
theorem levels_le (source : String) (e : Expr) :
    e.levels ≤ max (e.keptLevels source) (e.gainedLevels source) := by
  induction e using Expr.induction with
  | h e ih =>
    obtain ⟨hownKept, hstepsKept⟩ := keptLevels_le_iff.1 (Nat.le_refl (e.keptLevels source))
    obtain ⟨hownGained, hstepsGained⟩ :=
      gainedLevels_le_iff.1 (Nat.le_refl (e.gainedLevels source))
    refine levels_le_iff.2 ⟨?_, fun i y hy => ?_⟩
    · by_cases hgains : e.gainsArguments = true
      · rw [if_pos hgains] at hownGained
        exact Nat.le_trans hownGained (Nat.le_max_right _ _)
      · rw [if_neg hgains] at hownKept
        exact Nat.le_trans hownKept (Nat.le_max_left _ _)
    · have hkept := hstepsKept i y hy
      have hgained := hstepsGained i y hy
      by_cases hgains : e.gainsParentheses source i y = true
      · rw [if_pos hgains] at hgained
        exact Nat.le_trans hgained (Nat.le_max_right _ _)
      · rw [if_neg hgains] at hkept hgained
        -- Below the step it is the same, but a part without ways does not go on over it.
        have hbelow := ih y (List.mem_of_getElem? hy)
        by_cases hnone : y.gainedLevels source = 0
        · rw [if_pos hnone] at hgained
          omega
        · rw [if_neg hnone] at hgained
          omega

/-! ## Trees that gain nothing -/

/-- Whether the text of a node has brackets that the source left out. -/
def gainsBrackets (source : String) : Expr → Bool
  | e@(new _ callee _) => e.gainsArguments || e.gainsParentheses source 0 callee
  | e@(member _ object _ _ _) => e.gainsParentheses source 0 object
  | _ => false

/-- A node gains no brackets if neither an argument list is gained nor parentheses around a node
right below. -/
theorem gainsBrackets_eq_false_iff : e.gainsBrackets source = false ↔
    e.gainsArguments = false ∧
      ∀ i y, e.children[i]? = some y → e.gainsParentheses source i y = false := by
  cases e with
  | new span callee es =>
    have hrest : ∀ i y, es[i]? = some y →
        gainsParentheses source (new span callee es) (i + 1) y = false := fun _ _ _ => rfl
    rw [gainsBrackets, Bool.or_eq_false_iff, children, forall_getElem?_cons, and_iff_left hrest]
  | member span object property computed optional =>
    have hrest : ∀ i y, [property][i]? = some y →
        gainsParentheses source (member span object property computed optional) (i + 1) y =
          false := by
      intro i y _
      cases computed <;> rfl
    have hown : (member span object property computed optional).gainsArguments = false := rfl
    rw [gainsBrackets, and_iff_right hown, children, forall_getElem?_cons, and_iff_left hrest]
  | _ => exact iff_of_true rfl ⟨rfl, fun _ _ _ => rfl⟩

/-- No way meets a gained bracket exactly if no node has one. -/
theorem gainedLevels_eq_zero_iff :
    e.gainedLevels source = 0 ↔ ∀ n ∈ e.nodes, n.gainsBrackets source = false := by
  induction e using Expr.induction with
  | h e ih =>
    have hown : (if e.gainsArguments then e.ownLevels else 0) ≤ 0 ↔ e.gainsArguments = false := by
      have hpos := e.ownLevels_pos
      cases e.gainsArguments with
      | true => exact iff_of_false (Nat.not_le.2 hpos) (Bool.noConfusion)
      | false => exact iff_of_true (Nat.le_refl 0) rfl
    have hstep : ∀ i y, (if e.gainsParentheses source i y then e.stepLevels i y + y.levels
        else if y.gainedLevels source = 0 then 0
        else e.stepLevels i y + y.gainedLevels source) ≤ 0 ↔
          e.gainsParentheses source i y = false ∧ y.gainedLevels source = 0 := by
      intro i y
      have hpos := y.levels_pos
      cases e.gainsParentheses source i y with
      | true => simp only [if_true, Bool.true_eq_false, false_and, iff_false]; omega
      | false => by_cases hbelow : y.gainedLevels source = 0 <;> simp [hbelow]
    have hzero : e.gainedLevels source = 0 ↔ e.gainsArguments = false ∧
        ∀ i y, e.children[i]? = some y →
          e.gainsParentheses source i y = false ∧ y.gainedLevels source = 0 := by
      rw [← Nat.le_zero, gainedLevels_le_iff, hown]
      simp only [hstep]
    rw [hzero, forall_mem_nodes_iff, gainsBrackets_eq_false_iff]
    constructor
    · rintro ⟨hown, hsteps⟩
      refine ⟨⟨hown, fun i y hy => (hsteps i y hy).1⟩, fun child hchild => ?_⟩
      obtain ⟨i, hi⟩ := List.mem_iff_getElem?.1 hchild
      exact (ih child hchild).1 (hsteps i child hi).2
    · rintro ⟨⟨hown, hsteps⟩, hchildren⟩
      refine ⟨hown, fun i y hy => ⟨hsteps i y hy, ?_⟩⟩
      have hmem := List.mem_of_getElem? hy
      exact (ih y hmem).2 (hchildren y hmem)

end Expr

end Estree
