import Estree.Proofs.Grammar.Balance
import Estree.Proofs.Source.Balance
import Estree.Proofs.Source.RoundTrip
import Estree.Proofs.Source.Unplaced

/-!
# Parentheses that are needed

The text of a node is made of characters of its own and the texts of its operands (`Expr.segments`),
and a pair of parentheses around an operand is a `Grouping`. With one pair less a text costs less
(`balance_remove_lt`), and no text of a tree costs less than the one that is written for it. So what
is left is not read as the same tree (`ungrouped_differs`).

One kind of pair costs nothing: digits before `?.` are written in parentheses as they are before a
point, but there they do without (`ungrouped_agrees_optional`).

> `segments`: the text of a node as its own characters and its operands, each with the parentheses
> that it has there. The segments make up the text (`textOf_segments`).
> `Grouping e before inside after`: by the segments from the root down, a pair of parentheses in the
> text of a tree, with what stands before it, inside it and behind it.
> `balance_remove_lt`: taking the pair out lowers the cost, except before `?.`.
> `ungrouped_differs`: what is left is no text of the tree.

How much a pair costs depends on the operand in it. If that is not digits alone, the pair costs one,
and no neighbour can make up for it. Digits alone cost nothing in parentheses; there the point after
them does it, since without the pair it stands right behind a digit and counts one less. That is the
case for a plain member access, and the only operand that is digits alone and in parentheses is the
object of an access by a name (`exists_member_of_operand`, `point_of_operand`).
-/

open Estree.Expr

namespace Estree

open Text Grammar

namespace Source

/-- A segment of the text of a node. -/
inductive Segment where
  /-- Characters of the node itself. -/
  | own (text : List Char)
  /-- The text of an operand, in parentheses or not. -/
  | operand (isGrouped : Bool) (e : Expr)

namespace Segment

/-- What a segment adds to the text. -/
def text : Segment → List Char
  | own text => text
  | operand isGrouped e => group isGrouped e.text

/-- An expression between commas. -/
def item (e : Expr) : Segment :=
  operand (e.isGroupedAt Level.conditional) e

/-- An element between commas; a hole has no text. -/
def slot (slot : Option Expr) : Segment :=
  slot.elim (own []) item

/-- Segments with a comma and a space between them. -/
def listed : List Segment → List Segment
  | [] => []
  | [segment] => [segment]
  | segment :: rest => segment :: own [',', ' '] :: listed rest

/-- Arguments in the parentheses of their list. -/
def argumentList (es : List Expr) : List Segment :=
  own ['('] :: (listed (es.map item) ++ [own [')']])

end Segment

/-- The text that segments make up. -/
def textOf (segments : List Segment) : List Char :=
  segments.flatMap Segment.text

end Source

namespace Expr

open Source Segment

/-- What the text of a node is made of. -/
def segments : Expr → List Segment
  | literal _ raw _ => [own raw.toList]
  | identifier _ name => [own name.toList]
  | this _ => [own ['t', 'h', 'i', 's']]
  | array _ elements =>
    let endsInHole := elements.getLast?.any Option.isNone
    own ['['] ::
      (listed (elements.map slot ++ (if endsInHole then [own []] else [])) ++ [own [']']])
  | sequence _ expressions => listed (expressions.map item)
  | conditional _ test consequent alternate =>
    [operand (test.isGroupedAt (Level.conditional + 1)) test, own [' ', '?', ' '],
      operand (consequent.isGroupedAt Level.conditional) consequent, own [' ', ':', ' '],
      operand (alternate.isGroupedAt Level.conditional) alternate]
  | new _ callee es =>
    own ['n', 'e', 'w', ' '] :: operand callee.isGroupedAfterNew callee :: argumentList es
  | call _ callee es optional =>
    operand callee.isGroupedBeforeLink callee :: own (if optional then ['?', '.'] else []) ::
      argumentList es
  | member _ object property true optional =>
    [operand object.isGroupedBeforeLink object, own (⟨optional, true⟩ : Access).text.toList,
      operand false property, own [']']]
  | member _ object property false optional =>
    [operand object.isGroupedBeforeName object, own (⟨optional, false⟩ : Access).text.toList,
      operand false property]
  | chain _ expression => [operand false expression]
  | update _ operator true argument => [own operator.text.toList, operand false argument]
  | update _ operator false argument => [operand false argument, own operator.text.toList]
  | unary _ operator _ argument =>
    let isGrouped := argument.isGroupedAt Level.unary
    let space := if needsSpace operator (group isGrouped argument.text) then [' '] else []
    [own (operator.text.toList ++ space), operand isGrouped argument]
  | binary _ operator left right =>
    [operand (left.isGroupedBefore (.binary operator)) left,
      own (' ' :: ((InfixOperator.binary operator).text.toList ++ [' '])),
      operand (right.isGroupedAfter (.binary operator)) right]
  | logical _ operator left right =>
    [operand (left.isGroupedBefore (.logical operator)) left,
      own (' ' :: ((InfixOperator.logical operator).text.toList ++ [' '])),
      operand (right.isGroupedAfter (.logical operator)) right]

end Expr

namespace Source

/-- A pair of parentheses around an operand in the text of a tree: what stands before them, inside
them and after them. -/
inductive Grouping : Expr → (before inside after : List Char) → Prop
  /-- Around an operand of the root. -/
  | here {e operand : Expr} {preceding following : List Segment} :
    e.segments = preceding ++ .operand true operand :: following →
    Grouping e (textOf preceding) operand.text (textOf following)
  /-- In the text of an operand. -/
  | within {e operand : Expr} {isGrouped : Bool} {preceding following : List Segment}
      {before inside after : List Char} :
    e.segments = preceding ++ .operand isGrouped operand :: following →
    Grouping operand before inside after →
    Grouping e (textOf preceding ++ ((if isGrouped then ['('] else []) ++ before)) inside
      (after ++ ((if isGrouped then [')'] else []) ++ textOf following))

variable {e x : Expr} {es : List Expr} {before inside after : List Char}

/-- The pair of parentheses at a path: the place of a segment, in the segments of that operand the
place of another one, and so on to the operand that the parentheses are around. -/
def groupingAt? : Expr → (path : List Nat) → Option (List Char × List Char × List Char)
  | _, [] => none
  | e, i :: path =>
    match e.segments[i]? with
    | some (.operand isGrouped x) =>
      let preceding := textOf (e.segments.take i)
      let following := textOf (e.segments.drop (i + 1))
      if path.isEmpty then
        if isGrouped then some (preceding, x.text, following) else none
      else
        (groupingAt? x path).map fun (before, inside, after) =>
          (preceding ++ ((if isGrouped then ['('] else []) ++ before), inside,
            after ++ ((if isGrouped then [')'] else []) ++ following))
    | _ => none

/-- What stands at a path is a pair of parentheses of the text. -/
theorem grouping_of_groupingAt? {path : List Nat}
    (h : groupingAt? e path = some (before, inside, after)) : Grouping e before inside after := by
  induction path generalizing e before inside after with
  | nil => cases h
  | cons i path ih =>
    rw [groupingAt?] at h
    split at h
    next isGrouped x hx =>
      obtain ⟨hlt, hget⟩ := List.getElem?_eq_some_iff.1 hx
      have hsegments : e.segments =
          e.segments.take i ++ .operand isGrouped x :: e.segments.drop (i + 1) := by
        rw [← hget, ← List.drop_eq_getElem_cons, List.take_append_drop]
      dsimp only at h
      split at h
      next =>
        split at h
        next hgrouped =>
          rw [hgrouped] at hsegments
          cases h
          exact .here hsegments
        next => cases h
      next =>
        obtain ⟨⟨before', inside', after'⟩, hwithin, heq⟩ := Option.map_eq_some_iff.1 h
        cases heq
        exact .within hsegments (ih hwithin)
    next => cases h

/-! ## The text is made of the segments -/

/-- One segment more. -/
theorem textOf_cons (segment : Segment) (segments : List Segment) :
    textOf (segment :: segments) = segment.text ++ textOf segments := rfl

/-- Segments one after the other. -/
theorem textOf_append (segments segments' : List Segment) :
    textOf (segments ++ segments') = textOf segments ++ textOf segments' := List.flatMap_append

/-- Segments between commas. -/
theorem textOf_listed (segments : List Segment) :
    textOf (Segment.listed segments) = separated (segments.map Segment.text) := by
  induction segments with
  | nil => rfl
  | cons segment rest ih =>
    cases rest with
    | nil => exact List.append_nil _
    | cons second others =>
      show segment.text ++ ([',', ' '] ++ textOf (Segment.listed (second :: others))) = _
      rw [ih]
      rfl

/-- The texts of a list are those of its segments. -/
theorem textsOfList_eq_map (es : List Expr) :
    textsOfList es = (es.map Segment.item).map Segment.text := by
  induction es with
  | nil => rfl
  | cons e rest ih =>
    rw [textsOfList, ih]
    rfl

/-- The texts of elements are those of their segments. -/
theorem textsOfSlots_eq_map (elements : List (Option Expr)) :
    textsOfSlots elements = (elements.map Segment.slot).map Segment.text := by
  induction elements with
  | nil => rfl
  | cons slot rest ih =>
    rw [textsOfSlots_cons, ih]
    cases slot <;> rfl

/-- The segments of arguments make up their list. -/
theorem textOf_argumentList (es : List Expr) :
    textOf (Segment.argumentList es) = argumentsText (textsOfList es) := by
  rw [Segment.argumentList, textOf_cons, textOf_append, textOf_listed, ← textsOfList_eq_map]
  rfl

/-- The segments of a node make up its text. -/
theorem textOf_segments (e : Expr) : textOf e.segments = e.text := by
  cases e with
  | literal | identifier | this => exact List.append_nil _
  | array span elements =>
    rw [segments, textOf_cons, textOf_append, textOf_listed, List.map_append,
      ← textsOfSlots_eq_map, Expr.text, elementsText]
    split <;> simp [textOf, Segment.text]
  | sequence span es => rw [segments, textOf_listed, ← textsOfList_eq_map, Expr.text]
  | conditional span test consequent alternate => simp [segments, textOf, Segment.text, Expr.text]
  | new span callee es =>
    rw [segments, textOf_cons, textOf_cons, textOf_argumentList]
    rfl
  | call span callee es optional =>
    rw [segments, textOf_cons, textOf_cons, textOf_argumentList]
    rfl
  | member span object property computed optional =>
    cases computed <;> simp [segments, textOf, Segment.text, Expr.text, group]
  | chain span expression => simp [segments, textOf, Segment.text, Expr.text, group]
  | update span operator leading argument =>
    cases leading <;> simp [segments, textOf, Segment.text, Expr.text, group]
  | unary span operator leading argument =>
    simp only [segments, textOf, Segment.text, Expr.text, unaryText, List.flatMap_cons]
    split <;> simp
  | binary span operator left right | logical span operator left right =>
    simp [segments, textOf, Segment.text, Expr.text, infixText]

/-! ## Operands -/

/-- Between commas there is nothing but the segments and the commas. -/
theorem mem_of_mem_listed {segment : Segment} {segments : List Segment}
    (h : segment ∈ Segment.listed segments) : segment ∈ segments ∨ segment = .own [',', ' '] := by
  induction segments with
  | nil => cases h
  | cons first rest ih =>
    cases rest with
    | nil => exact Or.inl h
    | cons second others =>
      rcases List.mem_cons.1 h with rfl | h
      · exact Or.inl (List.mem_cons_self ..)
      · rcases List.mem_cons.1 h with rfl | h
        · exact Or.inr rfl
        · exact (ih h).imp_left (List.mem_cons_of_mem _)

/-- The operands of a list are its items. -/
theorem mem_of_operand_listed {isGrouped : Bool}
    (h : Segment.operand isGrouped x ∈ Segment.listed (es.map Segment.item)) :
    x ∈ es ∧ isGrouped = x.isGroupedAt Level.conditional := by
  rcases mem_of_mem_listed h with h | h
  · obtain ⟨y, hy, heq⟩ := List.mem_map.1 h
    cases heq
    exact ⟨hy, rfl⟩
  · cases h

/-- An operand among arguments is one of them, at the place of an item. -/
theorem mem_of_operand_argumentList {isGrouped : Bool}
    (h : Segment.operand isGrouped x ∈ Segment.argumentList es) :
    x ∈ es ∧ isGrouped = x.isGroupedAt Level.conditional := by
  refine mem_of_operand_listed ?_
  simpa [Segment.argumentList] using h

/-- An operand among elements is one of them, at the place of an item. -/
theorem mem_of_operand_slots {isGrouped : Bool} {elements : List (Option Expr)} {span : Span}
    (h : Segment.operand isGrouped x ∈ (array span elements).segments) :
    some x ∈ elements ∧ isGrouped = x.isGroupedAt Level.conditional := by
  have hlisted : Segment.operand isGrouped x ∈ Segment.listed (elements.map Segment.slot ++
      (if elements.getLast?.any Option.isNone then [.own []] else [])) := by
    simpa [segments] using h
  rcases mem_of_mem_listed hlisted with h | h
  · rcases List.mem_append.1 h with h | h
    · obtain ⟨slot, hslot, heq⟩ := List.mem_map.1 h
      cases slot with
      | none => cases heq
      | some y =>
        cases heq
        exact ⟨hslot, rfl⟩
    · split at h
      next => exact absurd h (by simp)
      next => cases h
  · cases h

/-- The operands of a node are nodes below it. -/
theorem mem_children_of_operand {isGrouped : Bool}
    (h : Segment.operand isGrouped x ∈ e.segments) : x ∈ e.children := by
  cases e with
  | literal | identifier | this => simp [segments] at h
  | array span elements =>
    exact List.mem_filterMap.2 ⟨some x, (mem_of_operand_slots h).1, rfl⟩
  | sequence span es => exact (mem_of_operand_listed h).1
  | new span callee es =>
    rcases List.mem_cons.1 h with h | h
    · cases h
    · rcases List.mem_cons.1 h with h | h
      · cases h
        exact List.mem_cons_self ..
      · exact List.mem_cons_of_mem _ (mem_of_operand_argumentList h).1
  | call span callee es optional =>
    rcases List.mem_cons.1 h with h | h
    · cases h
      exact List.mem_cons_self ..
    · rcases List.mem_cons.1 h with h | h
      · cases h
      · exact List.mem_cons_of_mem _ (mem_of_operand_argumentList h).1
  | conditional span test consequent alternate =>
    simp only [segments, List.mem_cons, Segment.operand.injEq, reduceCtorEq, List.not_mem_nil,
      or_false, false_or] at h
    rcases h with ⟨-, rfl⟩ | ⟨-, rfl⟩ | ⟨-, rfl⟩ <;> simp [children]
  | member span object property computed optional =>
    cases computed with
    | true | false =>
      simp only [segments, List.mem_cons, Segment.operand.injEq, reduceCtorEq, List.not_mem_nil,
        or_false, false_or] at h
      rcases h with ⟨-, rfl⟩ | ⟨-, rfl⟩ <;> simp [children]
  | chain span expression =>
    obtain ⟨-, rfl⟩ := Segment.operand.inj (List.mem_singleton.1 h)
    exact List.mem_cons_self ..
  | update span operator leading argument =>
    cases leading with
    | true =>
      simp only [segments, List.mem_cons, Segment.operand.injEq, reduceCtorEq, List.not_mem_nil,
        or_false, false_or] at h
      obtain ⟨-, rfl⟩ := h
      exact List.mem_cons_self ..
    | false =>
      simp only [segments, List.mem_cons, Segment.operand.injEq, reduceCtorEq, List.not_mem_nil,
        or_false] at h
      obtain ⟨-, rfl⟩ := h
      exact List.mem_cons_self ..
  | unary span operator leading argument =>
    simp only [segments, List.mem_cons, Segment.operand.injEq, reduceCtorEq, List.not_mem_nil,
      or_false, false_or] at h
    obtain ⟨-, rfl⟩ := h
    exact List.mem_cons_self ..
  | binary span operator left right | logical span operator left right =>
    simp only [segments, List.mem_cons, Segment.operand.injEq, reduceCtorEq, List.not_mem_nil,
      or_false, false_or] at h
    rcases h with ⟨-, rfl⟩ | ⟨-, rfl⟩ <;> simp [children]

/-- Digits are in parentheses only as the object of an access by name. -/
theorem exists_member_of_operand (h : Segment.operand true x ∈ e.segments)
    (hdigits : x.bareDigits?.isSome = true) :
    ∃ span property optional, e = member span x property false optional := by
  -- Digits bind most tightly, so none of the usual places has them in parentheses.
  have hitem : ¬true = x.isGroupedAt Level.conditional := by
    rw [isGroupedItem_of_bareDigits? hdigits]
    decide
  have hat : ∀ least ≤ Level.primary, ¬true = x.isGroupedAt least := fun least hleast => by
    rw [isGroupedAt_of_bareDigits? hdigits hleast]
    decide
  have hnew := isGroupedAfterNew_of_bareDigits? hdigits
  have hlink := isGroupedBeforeLink_of_bareDigits? hdigits
  have hbefore := isGroupedBefore_of_bareDigits? hdigits
  have hafter := isGroupedAfter_of_bareDigits? hdigits
  cases e with
  | literal | identifier | this => simp [segments] at h
  | array span elements => exact absurd (mem_of_operand_slots h).2 hitem
  | sequence span es => exact absurd (mem_of_operand_listed h).2 hitem
  | new span callee es =>
    rcases List.mem_cons.1 h with h | h
    · cases h
    · rcases List.mem_cons.1 h with h | h
      · injection h with hgrouped hsame
        rw [← hsame, hnew] at hgrouped
        cases hgrouped
      · exact absurd (mem_of_operand_argumentList h).2 hitem
  | call span callee es optional =>
    rcases List.mem_cons.1 h with h | h
    · injection h with hgrouped hsame
      rw [← hsame, hlink] at hgrouped
      cases hgrouped
    · rcases List.mem_cons.1 h with h | h
      · cases h
      · exact absurd (mem_of_operand_argumentList h).2 hitem
  | conditional span test consequent alternate =>
    simp only [segments, List.mem_cons, Segment.operand.injEq, reduceCtorEq, List.not_mem_nil,
      or_false, false_or] at h
    rcases h with ⟨hgrouped, rfl⟩ | ⟨hgrouped, rfl⟩ | ⟨hgrouped, rfl⟩
    · exact absurd hgrouped (hat _ (by decide))
    · exact absurd hgrouped hitem
    · exact absurd hgrouped hitem
  | member span object property computed optional =>
    cases computed with
    | true =>
      simp only [segments, List.mem_cons, Segment.operand.injEq, reduceCtorEq, List.not_mem_nil,
        or_false, false_and] at h
      obtain ⟨hgrouped, rfl⟩ := h
      rw [hlink] at hgrouped
      cases hgrouped
    | false =>
      simp only [segments, List.mem_cons, Segment.operand.injEq, reduceCtorEq, List.not_mem_nil,
        or_false, false_and] at h
      -- This is the one place where digits as such are in parentheses.
      obtain ⟨-, rfl⟩ := h
      exact ⟨span, property, optional, rfl⟩
  | chain span expression => simp [segments] at h
  | update span operator leading argument => cases leading <;> simp [segments] at h
  | unary span operator leading argument =>
    simp only [segments, List.mem_cons, Segment.operand.injEq, reduceCtorEq, List.not_mem_nil,
      or_false, false_or] at h
    obtain ⟨hgrouped, rfl⟩ := h
    exact absurd hgrouped (hat _ (by decide))
  | binary span operator left right | logical span operator left right =>
    simp only [segments, List.mem_cons, Segment.operand.injEq, reduceCtorEq, List.not_mem_nil,
      or_false, false_or] at h
    rcases h with ⟨hgrouped, rfl⟩ | ⟨hgrouped, rfl⟩
    · rw [hbefore] at hgrouped
      cases hgrouped
    · rw [hafter] at hgrouped
      cases hgrouped

/-- After digits in parentheses there is a point. -/
theorem point_of_operand {preceding following : List Segment}
    (h : e.segments = preceding ++ .operand true x :: following)
    (hdigits : x.bareDigits?.isSome = true) :
    (textOf following).head? = some '.' ∨ ['?', '.'] <+: textOf following := by
  have hmem : Segment.operand true x ∈ e.segments := by
    rw [h]
    exact List.mem_append_right _ (List.mem_cons_self ..)
  obtain ⟨span, property, optional, rfl⟩ := exists_member_of_operand hmem hdigits
  rw [segments] at h
  rcases preceding with _ | ⟨first, _ | ⟨second, _ | ⟨third, others⟩⟩⟩
  · obtain ⟨-, rfl⟩ := List.cons.inj h
    rw [textOf_cons]
    cases optional with
    | true => exact Or.inr ⟨_, rfl⟩
    | false => exact Or.inl rfl
  · simp at h
  · simp at h
  · simp at h

/-- The text is what stands before the pair, the pair with what is inside, and the rest. -/
theorem Grouping.text_eq (h : Grouping e before inside after) :
    e.text = before ++ '(' :: (inside ++ ')' :: after) := by
  induction h with
  | here h =>
    rw [← textOf_segments, h, textOf_append, textOf_cons]
    simp [Segment.text, group]
  | @within e operand isGrouped preceding following before inside after h _ ih =>
    rw [← textOf_segments, h, textOf_append, textOf_cons, Segment.text, ih]
    cases isGrouped <;> simp [group]

/-- What stands in the parentheses is the text of a node, and after digits there is a point. -/
theorem Grouping.exists_operand (h : Grouping e before inside after) (hfits : e.AllFit) :
    ∃ x : Expr, x.AllFit ∧ inside = x.text ∧
      (x.bareDigits?.isSome = true → after.head? = some '.' ∨ ['?', '.'] <+: after) := by
  induction h with
  | @here e operand preceding following h =>
    have hmem : Segment.operand true operand ∈ e.segments := by
      rw [h]
      exact List.mem_append_right _ (List.mem_cons_self ..)
    exact ⟨operand, hfits.child (mem_children_of_operand hmem), rfl, point_of_operand h⟩
  | @within e operand isGrouped preceding following before inside after h _ ih =>
    have hmem : Segment.operand isGrouped operand ∈ e.segments := by
      rw [h]
      exact List.mem_append_right _ (List.mem_cons_self ..)
    obtain ⟨x, hx, rfl, hpoint⟩ := ih (hfits.child (mem_children_of_operand hmem))
    refine ⟨x, hx, rfl, fun hdigits => (hpoint hdigits).imp (fun hhead => ?_) fun hprefix => ?_⟩
    · rw [List.head?_append, hhead]
      rfl
    · exact hprefix.trans (List.prefix_append _ _)

/-! ## One pair less -/

/-- The text of a tree costs what is due for the tree. -/
theorem balance_text (h : e.AllFit) : balance e.text = e.due := by
  have hcosts := costs_text h []
  have hjoint : joint e.text [] = 0 := joint_eq_zero (Or.inr (by decide))
  rw [List.append_nil, hjoint] at hcosts
  show balance e.text = e.due
  rw [hcosts]
  show e.due - 0 + 0 = e.due
  omega

/-- The text of digits alone ends in a digit. -/
theorem getLast?_of_bareDigits? (h : x.AllFit) (hdigits : x.bareDigits?.isSome = true) :
    x.text.getLast?.any Char.isDigit = true := by
  have hall := text_isDigit_of_bareDigits? hdigits
  obtain ⟨span, raw, value, rfl⟩ := exists_literal_of_bareDigits? hdigits
  have hne : raw.toList ≠ [] := fun hnil =>
    h.root.shape.hasSpelling (String.toList_inj.1 hnil)
  rw [Expr.text, List.getLast?_eq_some_getLast hne]
  exact hall _ (List.getLast_mem hne)

/-- Without the parentheses the text costs less, but for digits before `?.`. -/
theorem balance_remove_lt (h : Grouping e before inside after) (hfits : e.AllFit)
    (hneeded : ¬(inside.all Char.isDigit = true ∧ ['?', '.'] <+: after)) :
    balance (before ++ (inside ++ after)) < balance e.text := by
  obtain ⟨x, hx, rfl, hpoint⟩ := h.exists_operand hfits
  have hremove := balance_remove_le before (x.text ++ ')' :: after) (x.text ++ after)
  have hclose : balance (')' :: after) = balance after := balance_cons (by decide)
  have hinside := costs_text hx (')' :: after)
  have hbare := costs_text hx after
  have hmeets : joint x.text (')' :: after) = 0 :=
    joint_eq_zero (Or.inr (show some ')' ≠ some '.' by decide))
  rw [balance_open] at hremove
  rw [h.text_eq]
  rcases endsOrDigits hx with hdigits | hends
  · -- The parentheses have cost nothing, but without them the point comes after a digit.
    have hall : x.text.all Char.isDigit = true :=
      List.all_eq_true.2 (text_isDigit_of_bareDigits? hdigits)
    have hhead : after.head? = some '.' :=
      (hpoint hdigits).resolve_right fun hprefix => hneeded ⟨hall, hprefix⟩
    have htoll : openToll (x.text ++ ')' :: after) = 0 :=
      openToll_of_bareDigits? hx hdigits after
    have hjoint : joint x.text after = 1 := if_pos ⟨getLast?_of_bareDigits? hx hdigits, hhead⟩
    omega
  · have htoll : openToll (x.text ++ ')' :: after) = 1 :=
      openToll_of_endsDigits (lays_text hx) hends _
    have hjoint := joint_nonneg x.text after
    omega

end Source

namespace Expr

open Source

/-- No text of a tree costs less than the one that is written for it. -/
theorem balance_text_le_of_reads {e e' : Expr} {source : String}
    (h : Reads source e') (hsame : e'.SameAs e) : balance e.text ≤ balance source.toList := by
  have hdue := due_le_balance h
  rw [← balance_text h.isOperand.allFit, hsame.text_eq] at hdue
  exact hdue

/-- A pair of parentheses that has been written around an operand is needed, unless it is around
digits before `?.`: without it the text is read as some other tree, or not at all. -/
theorem ungrouped_differs {limits : Limits} {source text : String} {e : Expr}
    {before inside after : List Char} (hread : parseWithin limits source = .ok e)
    (hwritten : e.toSource = .ok text) (hgrouping : Grouping e before inside after)
    (hneeded : ¬(inside.all Char.isDigit = true ∧ ['?', '.'] <+: after)) :
    text.toList = before ++ '(' :: (inside ++ ')' :: after) ∧
      ∀ wide e', parseWithin wide (String.ofList (before ++ (inside ++ after))) = .ok e' →
        ¬e'.SameAs e := by
  have hfits := (reads_of_parseWithin_eq_ok hread).isOperand.allFit
  obtain rfl := text_of_toSource hfits hwritten
  refine ⟨String.toList_ofList.trans hgrouping.text_eq, fun wide e' hparse hsame => ?_⟩
  have hless := balance_remove_lt hgrouping hfits hneeded
  have hleast := balance_text_le_of_reads (reads_of_parseWithin_eq_ok hparse) hsame
  rw [String.toList_ofList] at hleast
  exact absurd hless (Int.not_lt.2 hleast)

/-- A sum that is negated. -/
theorem ungrouped_differs_sum : ∃ e, parseWithin .standard "-(a + b)" = .ok e ∧
    e.toSource = .ok "-(a + b)" ∧ Grouping e ['-'] "a + b".toList [] ∧
    ¬("a + b".toList.all Char.isDigit = true ∧ ['?', '.'] <+: []) ∧
    ∀ wide e', parseWithin wide "-a + b" = .ok e' → ¬e'.SameAs e := by
  have hcheck : (parseWithin .standard "-(a + b)").toOption.any (fun e =>
      e.toSource.toOption == some "-(a + b)" &&
        groupingAt? e [1] == some (['-'], "a + b".toList, [])) = true := by
    decide +kernel
  obtain ⟨e, hread, hcheck⟩ := exists_of_any_toOption hcheck
  obtain ⟨hwritten, hcheck⟩ := Bool.and_eq_true_iff.1 hcheck
  have hwritten := eq_ok_of_toOption (eq_of_beq hwritten)
  have hgrouping := grouping_of_groupingAt? (eq_of_beq hcheck)
  have hneeded : ¬("a + b".toList.all Char.isDigit = true ∧ ['?', '.'] <+: []) := by decide
  exact ⟨e, hread, hwritten, hgrouping, hneeded,
    (ungrouped_differs hread hwritten hgrouping hneeded).2⟩

/-- Digits before `?.` are written in parentheses, but they do without. -/
theorem ungrouped_agrees_optional : ∃ e, parseWithin .standard "1?.x" = .ok e ∧
    e.toSource = .ok "(1)?.x" ∧ Grouping e [] ['1'] ['?', '.', 'x'] := by
  have hcheck : (parseWithin .standard "1?.x").toOption.any (fun e =>
      e.toSource.toOption == some "(1)?.x" &&
        groupingAt? e [0, 0] == some ([], ['1'], ['?', '.', 'x'])) = true := by
    decide +kernel
  obtain ⟨e, hread, hcheck⟩ := exists_of_any_toOption hcheck
  obtain ⟨hwritten, hcheck⟩ := Bool.and_eq_true_iff.1 hcheck
  exact ⟨e, hread, eq_ok_of_toOption (eq_of_beq hwritten),
    grouping_of_groupingAt? (eq_of_beq hcheck)⟩

end Expr

end Estree
