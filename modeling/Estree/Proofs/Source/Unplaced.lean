import Estree.Proofs.Expr.Points
import Estree.Proofs.Source.Text

/-!
# Texts apart from spans

No span of a tree has a part in how it is written, so trees that are the same have the same text
(`SameAs.text_eq`).

Every question that the writer asks of an operand is answered alike with spans and without them:
whether it is digits alone, how tightly it binds, and where it has to be in parentheses. The text is
then the same by an induction over the tree.
-/

namespace Estree

namespace Expr

open Source

variable {e e' : Expr} {es : List Expr}

/-! ## Where parentheses are needed -/

/-- Digits alone stay so. -/
theorem bareDigits?_unplaced (e : Expr) : e.unplaced.bareDigits? = e.bareDigits? := by
  cases e with
  | literal span raw value => cases value <;> rfl
  | _ => rfl

/-- A place with a level demands the same parentheses. -/
theorem isGroupedAt_unplaced (e : Expr) (least : Nat) :
    e.unplaced.isGroupedAt least = e.isGroupedAt least := by
  rw [isGroupedAt, isGroupedAt, level_unplaced]

/-- So does a link. -/
theorem isGroupedBeforeLink_unplaced (e : Expr) :
    e.unplaced.isGroupedBeforeLink = e.isGroupedBeforeLink := by
  rw [isGroupedBeforeLink, isGroupedBeforeLink, isChain_unplaced, isGroupedAt_unplaced]

/-- So does an access by a name. -/
theorem isGroupedBeforeName_unplaced (e : Expr) :
    e.unplaced.isGroupedBeforeName = e.isGroupedBeforeName := by
  rw [isGroupedBeforeName, isGroupedBeforeName, bareDigits?_unplaced, isGroupedBeforeLink_unplaced]

/-- So does a `new`. -/
theorem isGroupedAfterNew_unplaced (e : Expr) :
    e.unplaced.isGroupedAfterNew = e.isGroupedAfterNew := by
  rw [isGroupedAfterNew, isGroupedAfterNew, isChain_unplaced, hasCallInSpine_unplaced,
    isGroupedAt_unplaced]

/-- The same logical operators clash. -/
theorem clashesWith_unplaced (e : Expr) (operator : InfixOperator) :
    e.unplaced.clashesWith operator = e.clashesWith operator := by
  cases operator with
  | binary => rfl
  | logical operator => cases e <;> rfl

/-- So the left operand of an operator has the same parentheses. -/
theorem isGroupedBefore_unplaced (e : Expr) (operator : InfixOperator) :
    e.unplaced.isGroupedBefore operator = e.isGroupedBefore operator := by
  have hunary : e.unplaced.isUnary = e.isUnary := by cases e <;> rfl
  rw [isGroupedBefore, isGroupedBefore, hunary, clashesWith_unplaced, isGroupedAt_unplaced]

/-- So has the right one. -/
theorem isGroupedAfter_unplaced (e : Expr) (operator : InfixOperator) :
    e.unplaced.isGroupedAfter operator = e.isGroupedAfter operator := by
  rw [isGroupedAfter, isGroupedAfter, clashesWith_unplaced, isGroupedAt_unplaced]

/-! ## Texts -/

/-- The texts of a list are the same if those of its trees are. -/
theorem textsOfList_unplaced (h : ∀ x ∈ es, x.unplaced.text = x.text) :
    textsOfList (es.map unplaced) = textsOfList es := by
  induction es with
  | nil => rfl
  | cons e rest ih =>
    obtain ⟨he, hrest⟩ := List.forall_mem_cons.1 h
    rw [List.map_cons, textsOfList, textsOfList, he, ih hrest, isGroupedAt_unplaced]

/-- The same for the elements of an array. -/
theorem textsOfSlots_unplaced {elements : List (Option Expr)}
    (h : ∀ x, some x ∈ elements → x.unplaced.text = x.text) :
    textsOfSlots (elements.map (Option.map unplaced)) = textsOfSlots elements := by
  induction elements with
  | nil => rfl
  | cons slot rest ih =>
    have hrest := ih fun x hx => h x (List.mem_cons_of_mem _ hx)
    cases slot with
    | none => exact congrArg ([] :: ·) hrest
    | some e =>
      show group (e.unplaced.isGroupedAt Level.conditional) e.unplaced.text :: _ = _
      rw [h e (List.mem_cons_self ..), hrest, isGroupedAt_unplaced]
      rfl

/-- The text is written without any look at spans. -/
theorem text_unplaced (e : Expr) : e.unplaced.text = e.text := by
  induction e using Expr.induction with
  | h e ih =>
    cases e with
    | literal | identifier | this => rfl
    | array span elements =>
      have hslots := textsOfSlots_unplaced fun x hx => ih x (List.mem_filterMap.2 ⟨some x, hx, rfl⟩)
      have hends : (elements.map (Option.map unplaced)).getLast?.any Option.isNone =
          elements.getLast?.any Option.isNone := by
        rw [List.getLast?_map]
        rcases elements.getLast? with _ | _ | _ <;> rfl
      rw [unplaced, unplacedSlots_eq_map, text, text, hslots, elementsText, hends, elementsText]
    | sequence span es =>
      rw [unplaced, unplacedList_eq_map, text, text, @textsOfList_unplaced es ih]
    | conditional span test consequent alternate =>
      rw [unplaced, text, text, isGroupedAt_unplaced, isGroupedAt_unplaced, isGroupedAt_unplaced,
        ih test (by simp [children]), ih consequent (by simp [children]),
        ih alternate (by simp [children])]
    | new span callee es =>
      rw [unplaced, unplacedList_eq_map, text, text, isGroupedAfterNew_unplaced,
        ih callee (List.mem_cons_self ..),
        textsOfList_unplaced fun x hx => ih x (List.mem_cons_of_mem _ hx)]
    | call span callee es optional =>
      rw [unplaced, unplacedList_eq_map, text, text, isGroupedBeforeLink_unplaced,
        ih callee (List.mem_cons_self ..),
        textsOfList_unplaced fun x hx => ih x (List.mem_cons_of_mem _ hx)]
    | member span object property computed optional =>
      have hobject := ih object (by simp [children])
      have hproperty := ih property (by simp [children])
      cases computed with
      | true => rw [unplaced, text, text, isGroupedBeforeLink_unplaced, hobject, hproperty]
      | false => rw [unplaced, text, text, isGroupedBeforeName_unplaced, hobject, hproperty]
    | chain span expression => exact ih expression (List.mem_cons_self ..)
    | update span operator leading argument =>
      rw [unplaced, text, text, ih argument (List.mem_cons_self ..)]
    | unary span operator leading argument =>
      rw [unplaced, text, text, isGroupedAt_unplaced, ih argument (List.mem_cons_self ..)]
    | binary span operator left right | logical span operator left right =>
      rw [unplaced, text, text, isGroupedBefore_unplaced, isGroupedAfter_unplaced,
        ih left (by simp [children]), ih right (by simp [children])]

/-- Trees that are the same have the same text. -/
theorem SameAs.text_eq (h : e.SameAs e') : e.text = e'.text := by
  rw [← text_unplaced e, h, text_unplaced]

end Expr

end Estree
