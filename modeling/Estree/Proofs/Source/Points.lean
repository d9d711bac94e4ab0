import Estree.Proofs.Expr.Points
import Estree.Proofs.Source.Text

/-!
# Points of the text

The text of a tree has the points that its nodes are written with, and no others: separators,
parentheses, operators and names have none (`points_text`).

It is an induction over the tree, and the lemmas before it count the points in each kind of text
that the writer puts together: items with commas, elements, operators with their operands. A name
has none, as no point is part of an identifier (`count_of_isName`), and a number has those of its
spelling.
-/

open Estree.Expr

namespace Estree

namespace Source

variable {e : Expr} {es : List Expr}

/-- Parentheses have no points. -/
theorem count_group (isGrouped : Bool) (text : List Char) :
    (group isGrouped text).count '.' = text.count '.' := by
  cases isGrouped with
  | true => simp [group]
  | false => rfl

/-- Commas have none. -/
theorem count_separated (texts : List (List Char)) :
    (separated texts).count '.' = (texts.map (List.count '.')).sum := by
  induction texts with
  | nil => rfl
  | cons text rest ih =>
    cases rest with
    | nil => simp [separated]
    | cons second others =>
      show (text ++ ',' :: ' ' :: separated (second :: others)).count '.' = _
      rw [List.count_append, List.count_cons_of_ne (by decide),
        List.count_cons_of_ne (by decide), ih]
      rfl

/-- Nor have the parentheses of arguments. -/
theorem count_argumentsText (texts : List (List Char)) :
    (argumentsText texts).count '.' = (texts.map (List.count '.')).sum := by
  rw [argumentsText, List.count_cons_of_ne (by decide), List.count_append, count_separated]
  rfl

/-- The comma after a hole at the end has no point. -/
theorem count_elementsText (elements : List (Option Expr)) (texts : List (List Char)) :
    (elementsText elements texts).count '.' = (texts.map (List.count '.')).sum := by
  have hsplit : elementsText elements texts =
      '[' :: (separated (if elements.getLast?.any Option.isNone then texts ++ [[]] else texts) ++
        [']']) := rfl
  rw [hsplit, List.count_cons_of_ne (by decide), List.count_append, count_separated]
  split
  next => simp
  next => rfl

/-- Nor has a unary operator. -/
theorem count_unaryText (operator : UnaryOperator) (argument : List Char) :
    (unaryText operator argument).count '.' = argument.count '.' := by
  have hoperator : operator.text.toList.count '.' = 0 := by
    cases operator <;> decide
  rw [unaryText, List.count_append, hoperator, Nat.zero_add]
  split
  next => rw [List.count_cons_of_ne (by decide)]
  next => rfl

/-- Nor has an infix operator. -/
theorem count_infixText (operator : InfixOperator) (left right : List Char) :
    (infixText operator left right).count '.' = left.count '.' + right.count '.' := by
  have hoperator : operator.text.toList.count '.' = 0 := by
    rcases operator with operator | operator <;> cases operator <;> decide
  rw [infixText, List.count_append, List.count_cons_of_ne (by decide), List.count_append, hoperator,
    List.count_cons_of_ne (by decide), Nat.zero_add]

/-- The texts of a list have the points of its trees. -/
theorem count_textsOfList (h : ∀ x ∈ es, x.text.count '.' = x.points) :
    ((textsOfList es).map (List.count '.')).sum = (es.map points).sum := by
  induction es with
  | nil => rfl
  | cons e rest ih =>
    obtain ⟨he, hrest⟩ := List.forall_mem_cons.1 h
    rw [textsOfList, List.map_cons, List.sum_cons, List.map_cons, List.sum_cons, ih hrest,
      count_group, he]

/-- The texts of elements have those of the elements. -/
theorem count_textsOfSlots {elements : List (Option Expr)}
    (h : ∀ x ∈ elements.filterMap id, x.text.count '.' = x.points) :
    ((textsOfSlots elements).map (List.count '.')).sum =
      ((elements.filterMap id).map points).sum := by
  induction elements with
  | nil => rfl
  | cons slot rest ih =>
    cases slot with
    | none =>
      rw [textsOfSlots, List.map_cons, List.sum_cons, ih h]
      exact Nat.zero_add _
    | some e =>
      obtain ⟨he, hrest⟩ := List.forall_mem_cons.1 h
      rw [textsOfSlots, List.map_cons, List.sum_cons, ih hrest, count_group, he]
      rfl

/-- Names have no points. -/
theorem count_of_isName {name : String} (h : IsName name) : name.toList.count '.' = 0 := by
  obtain ⟨x, xs, hname, hx, hxs⟩ := h
  have hpoint : Text.isIdentifierPart '.' = false :=
    Text.isIdentifierPart_of_mem_symbols (by decide)
  rw [hname, List.count_eq_zero]
  intro hmem
  rcases List.mem_cons.1 hmem with rfl | hmem
  · rw [Text.isIdentifierPart_of_start hx] at hpoint
    cases hpoint
  · rw [hxs _ hmem] at hpoint
    cases hpoint

/-- The text of a tree has the points of its nodes. -/
theorem points_text (h : e.AllFit) : e.text.count '.' = e.points := by
  induction e using Expr.induction with
  | h e ih =>
    have hchild : ∀ x ∈ e.children, x.text.count '.' = x.points := fun x hx =>
      ih x hx (h.child hx)
    have hshape := h.root.shape
    rw [points_eq]
    cases e with
    | literal span raw value => rfl
    | identifier span name => exact count_of_isName hshape
    | this span => rfl
    | array span elements =>
      rw [text, count_elementsText, count_textsOfSlots hchild]
      exact (Nat.zero_add _).symm
    | sequence span es =>
      rw [text, count_separated, count_textsOfList (show ∀ x ∈ es, _ from hchild)]
      exact (Nat.zero_add _).symm
    | conditional span test consequent alternate =>
      have htest := hchild test (by simp [children])
      have hconsequent := hchild consequent (by simp [children])
      have halternate := hchild alternate (by simp [children])
      have htext : (Expr.conditional span test consequent alternate).text =
          group (test.isGroupedAt (Level.conditional + 1)) test.text ++ ([' ', '?', ' '] ++
            (group (consequent.isGroupedAt Level.conditional) consequent.text ++ ([' ', ':', ' '] ++
              group (alternate.isGroupedAt Level.conditional) alternate.text))) := rfl
      rw [htext, List.count_append, List.count_append, List.count_append, List.count_append,
        count_group, count_group, count_group, htest, hconsequent, halternate]
      show _ + (0 + (_ + (0 + _))) = 0 + (_ + (_ + (_ + 0)))
      omega
    | new span callee es =>
      have hcallee := hchild callee (List.mem_cons_self ..)
      have hes := count_textsOfList fun x hx => hchild x (List.mem_cons_of_mem _ hx)
      have htext : (Expr.new span callee es).text = ['n', 'e', 'w', ' '] ++
          (group callee.isGroupedAfterNew callee.text ++ argumentsText (textsOfList es)) := rfl
      rw [htext, List.count_append, List.count_append, count_group, hcallee, count_argumentsText,
        hes]
      rfl
    | call span callee es optional =>
      have hcallee := hchild callee (List.mem_cons_self ..)
      have hes := count_textsOfList fun x hx => hchild x (List.mem_cons_of_mem _ hx)
      have hoptional : (if optional then ['?', '.'] else []).count '.' = optional.toNat := by
        cases optional <;> rfl
      rw [text, List.count_append, List.count_append, count_group, hcallee, hoptional,
        count_argumentsText, hes, children, List.map_cons, List.sum_cons, ownPoints]
      omega
    | member span object property computed optional =>
      have hobject := hchild object (by simp [children])
      have hproperty := hchild property (by simp [children])
      cases computed with
      | true =>
        rw [text, List.count_append, List.count_append, List.count_append, count_group, hobject,
          hproperty, children, List.map_cons, List.map_cons, List.sum_cons, List.sum_cons,
          ownPoints]
        show _ + (_ + (_ + 0)) = _ + (_ + (_ + 0))
        omega
      | false =>
        rw [text, List.count_append, List.count_append, count_group, hobject, hproperty, children,
          List.map_cons, List.map_cons, List.sum_cons, List.sum_cons, ownPoints]
        show _ + (_ + _) = _ + (_ + (_ + 0))
        omega
    | chain span expression =>
      rw [text, hchild expression (List.mem_cons_self ..)]
      exact (Nat.zero_add _).symm
    | update span operator leading argument =>
      have hargument := hchild argument (List.mem_cons_self ..)
      have hoperator : operator.text.toList.count '.' = 0 := by
        cases operator <;> decide
      cases leading with
      | true =>
        show (operator.text.toList ++ argument.text).count '.' = 0 + argument.points
        rw [List.count_append, hoperator, hargument]
      | false =>
        show (argument.text ++ operator.text.toList).count '.' = 0 + argument.points
        rw [List.count_append, hoperator, hargument, Nat.zero_add]
        rfl
    | unary span operator leading argument =>
      rw [text, count_unaryText, count_group, hchild argument (List.mem_cons_self ..)]
      exact (Nat.zero_add _).symm
    | binary span operator left right | logical span operator left right =>
      rw [text, count_infixText, count_group, count_group, hchild left (by simp [children]),
        hchild right (by simp [children])]
      exact (Nat.zero_add _).symm

end Source

end Estree
