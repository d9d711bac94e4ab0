import Estree.Proofs.Expr.Due
import Estree.Proofs.Source.Residue
import Estree.Proofs.Text.Balance

/-!
# The text of a tree costs what is due

What is written for a tree costs by `Text.balance` what is due for it (`costs_text`), and by
`due_le_balance` no text of the tree costs less.

> `Costs text amount`: a piece costs the amount before any text that follows, except that it costs
> one less if it ends in a digit and a point follows.
> `Costs.append`: pieces add up if the second one does not begin with a point.
> `costs_text`: an induction over the tree, in which each node puts the pieces of its text together.

A parenthesis looks at what is behind it, and what it wants to know is whether digits alone stand
before the next parenthesis that closes. Within a piece this is settled if something ends the digits
that the piece begins with (`EndsDigits`). All texts of trees have that, but for digits alone
(`endsOrDigits`), so a group around an operand costs one exactly if the operand is not digits alone
(`costs_group`, `costs_digits`).

The seam between an object and the point after it is the only place where a text does cost less than
its pieces (`costs_member`): the object may end in a digit, and `accessDue` has taken that off
already.
-/

open Estree.Expr

namespace Estree

open Text

namespace Source

variable {e : Expr} {es : List Expr} {text text' xs : List Char} {amount amount' : Int}

/-! ## Texts that are not digits alone -/

/-- What follows the digits that the text begins with is in the text, and no closing parenthesis. -/
def EndsDigits (text : List Char) : Prop :=
  ∃ x, (text.dropWhile Char.isDigit).head? = some x ∧ x ≠ ')'

/-- What ends the digits is there whatever follows. -/
theorem EndsDigits.append (h : EndsDigits text) (rest : List Char) : EndsDigits (text ++ rest) := by
  obtain ⟨x, hx, hclose⟩ := h
  refine ⟨x, ?_, hclose⟩
  rw [head?_dropWhile_append, hx]
  rfl

/-- A first character that is no digit and does not close ends them at once. -/
theorem endsDigits_cons {x : Char} {rest : List Char} (hdigit : x.isDigit = false) (hx : x ≠ ')') :
    EndsDigits (x :: rest) := by
  refine ⟨x, ?_, hx⟩
  rw [List.dropWhile_cons_of_neg (Bool.eq_false_iff.1 hdigit)]
  rfl

/-- The text of an operand ends the digits at its start, unless it consists of them. -/
def EndsOrDigits (e : Expr) : Prop :=
  e.bareDigits?.isSome = true ∨ EndsDigits e.text

/-- The text of digits alone has only digits. -/
theorem text_isDigit_of_bareDigits? (h : e.bareDigits?.isSome = true) :
    ∀ x ∈ e.text, x.isDigit = true := by
  obtain ⟨digits, hdigits⟩ := Option.isSome_iff_exists.1 h
  obtain ⟨span, raw, value, rfl⟩ := exists_literal_of_bareDigits? h
  rw [bareDigits?] at hdigits
  split at hdigits
  next hall => exact List.all_eq_true.1 hall
  next => cases hdigits

/-- Digits end where an operand is followed by something else. -/
theorem EndsOrDigits.followed (h : EndsOrDigits e) (isGrouped : Bool) {x : Char} {rest : List Char}
    (hdigit : x.isDigit = false) (hx : x ≠ ')') :
    EndsDigits (group isGrouped e.text ++ x :: rest) := by
  cases isGrouped with
  | true => exact (endsDigits_cons rfl (by decide)).append _
  | false =>
    rcases h with hdigits | hends
    · obtain ⟨y, hy, hclose⟩ := @endsDigits_cons x rest hdigit hx
      refine ⟨y, ?_, hclose⟩
      show ((e.text ++ x :: rest).dropWhile Char.isDigit).head? = some y
      rw [List.dropWhile_append_of_pos (text_isDigit_of_bareDigits? hdigits), hy]
    · exact hends.append _

/-- A name does not begin with a digit. -/
theorem endsDigits_of_isName {name : String} (h : IsName name) : EndsDigits name.toList := by
  obtain ⟨x, xs, hname, hx, -⟩ := h
  rw [hname]
  refine endsDigits_cons (Bool.eq_false_iff.2 fun hdigit => ?_) ?_
  · rw [isIdentifierStart_of_isDigit hdigit] at hx
    cases hx
  · rintro rfl
    exact absurd hx (by decide)

/-- A numeral is digits alone, or what comes behind the digits that it begins with is in it and no
parenthesis. -/
theorem endsOrDigits_number {span : Span} {raw : String} {value : Binary64}
    (h : IsNumeral raw.toList) : EndsOrDigits (.literal span raw (.number value)) := by
  by_cases hall : raw.toList.all Char.isDigit = true
  · refine Or.inl ?_
    rw [bareDigits?, if_pos hall]
    rfl
  · refine Or.inr ?_
    cases hhead : (raw.toList.dropWhile Char.isDigit).head? with
    | none =>
      have hsplit : raw.toList.takeWhile Char.isDigit ++ raw.toList.dropWhile Char.isDigit =
          raw.toList := List.takeWhile_append_dropWhile
      rw [List.head?_eq_none_iff.1 hhead, List.append_nil] at hsplit
      rw [← hsplit] at hall
      exact absurd List.all_takeWhile hall
    | some x =>
      refine ⟨x, hhead, ?_⟩
      rintro rfl
      have hmem : ')' ∈ raw.toList :=
        (List.dropWhile_sublist _).subset (List.mem_of_mem_head? hhead)
      exact (isPlain_of_mem_numeral h hmem).1.2 (by decide)

/-- Every text of a tree ends its digits, but for digits alone. -/
theorem endsOrDigits (h : e.AllFit) : EndsOrDigits e := by
  induction e using Expr.induction with
  | h e ih =>
    have hshape := h.root.shape
    have hchild : ∀ x ∈ e.children, EndsOrDigits x := fun x hx => ih x hx (h.child hx)
    cases e with
    | literal span raw value =>
      cases hshape with
      | true | false | null =>
        exact Or.inr (endsDigits_of_isName (isName_of_mem_reservedWords (by decide)))
      | number hnumeral _ => exact endsOrDigits_number hnumeral
    | identifier span name => exact Or.inr (endsDigits_of_isName hshape)
    | this span => exact Or.inr (endsDigits_cons rfl (by decide))
    | array span elements => exact Or.inr (endsDigits_cons rfl (by decide))
    | sequence span es =>
      have hlength : 2 ≤ es.length := hshape
      rcases es with _ | ⟨first, _ | ⟨second, others⟩⟩
      · exact absurd hlength (by decide)
      · exact absurd hlength (by simp)
      · exact Or.inr ((hchild first (List.mem_cons_self ..)).followed _ rfl (by decide))
    | conditional span test consequent alternate =>
      exact Or.inr ((hchild test (by simp [children])).followed _ rfl (by decide))
    | new span callee es => exact Or.inr (endsDigits_cons rfl (by decide))
    | call span callee es optional =>
      have hcallee := hchild callee (List.mem_cons_self ..)
      refine Or.inr ?_
      cases optional with
      | true => exact hcallee.followed _ rfl (by decide)
      | false => exact hcallee.followed _ rfl (by decide)
    | member span object property computed optional =>
      have hobject := hchild object (by simp [children])
      refine Or.inr ?_
      cases computed with
      | true => cases optional <;> exact hobject.followed _ rfl (by decide)
      | false => cases optional <;> exact hobject.followed _ rfl (by decide)
    | chain span expression =>
      have hlink : expression.isLink = true := isLink_of_hasOptionalLink hshape
      rcases hchild expression (List.mem_cons_self ..) with hdigits | hends
      · obtain ⟨_, _, _, rfl⟩ := exists_literal_of_bareDigits? hdigits
        cases hlink
      · exact Or.inr hends
    | update span operator leading argument =>
      have hargument := hchild argument (List.mem_cons_self ..)
      refine Or.inr ?_
      cases leading with
      | true => cases operator <;> exact endsDigits_cons rfl (by decide)
      | false => cases operator <;> exact hargument.followed false rfl (by decide)
    | unary span operator leading argument =>
      refine Or.inr ?_
      rw [text, unaryText]
      cases operator <;> exact endsDigits_cons rfl (by decide)
    | binary span operator left right | logical span operator left right =>
      exact Or.inr ((hchild left (by simp [children])).followed _ rfl (by decide))

/-! ## Pieces of the text -/

/-- The text costs so much, whatever follows it, but for a point at its end. -/
def Costs (text : List Char) (amount : Int) : Prop :=
  ∀ rest, balance (text ++ rest) = amount - joint text rest + balance rest

/-- A text that begins with something other than a point. -/
def StartsApart (text : List Char) : Prop :=
  ∃ x rest, text = x :: rest ∧ x ≠ '.'

/-- An amount may be written in another way. -/
theorem Costs.of_eq (h : Costs text amount) (heq : amount = amount') : Costs text amount' :=
  heq ▸ h

/-- Pieces add up if the second one does not begin with a point. -/
theorem Costs.append (h : Costs text amount) (h' : Costs text' amount')
    (hstart : StartsApart text') :
    Costs (text ++ text') (amount + amount') := by
  obtain ⟨x, xs, rfl, hx⟩ := hstart
  intro rest
  have hmeets : joint text (x :: xs ++ rest) = 0 :=
    joint_eq_zero (Or.inr fun heq => hx (Option.some.inj heq))
  rw [List.append_assoc, h, h', hmeets, joint_append (List.cons_ne_nil x xs)]
  omega

/-- Free characters may come first. -/
theorem Costs.after (h : Costs text amount) (xs : List Char) (hxs : ∀ x ∈ xs, IsFree x) :
    Costs (xs ++ text) amount := by
  intro rest
  rw [List.append_assoc, balance_append_free hxs, h, joint_append_free hxs]

/-- The empty text costs nothing. -/
theorem costs_nil : Costs [] 0 := by
  intro rest
  show balance rest = 0 - 0 + balance rest
  omega

/-- Free characters cost nothing together. -/
theorem costs_free (hxs : ∀ x ∈ xs, IsFree x) : Costs xs 0 := by
  have hnil := costs_nil.after _ hxs
  rwa [List.append_nil] at hnil

/-- What closes costs nothing. -/
theorem costs_closing {x : Char} (hx : x = ')' ∨ x = ']') : Costs [x] 0 := by
  rcases hx with rfl | rfl
  · exact costs_free (by decide)
  · exact costs_free (by decide)

/-- A text without parentheses costs what it costs alone. -/
theorem costs_balance (hxs : ∀ x ∈ xs, x ≠ '(') : Costs xs (balance xs) :=
  fun _ => balance_append hxs

/-- What stands in parentheses. -/
theorem Costs.paren (h : Costs text amount) {toll : Int}
    (htoll : ∀ rest, openToll (text ++ ')' :: rest) = toll) :
    Costs ('(' :: (text ++ [')'])) (toll + amount) := by
  have hclosed := h.append (costs_closing (Or.inl rfl)) ⟨_, _, rfl, by decide⟩
  intro rest
  have hassoc : text ++ [')'] ++ rest = text ++ ')' :: rest := by simp
  have hlast : joint ('(' :: (text ++ [')'])) rest = joint (text ++ [')']) rest :=
    joint_append (by simp) ['('] rest
  show balance ('(' :: (text ++ [')'] ++ rest)) = _
  rw [balance_open, hclosed, hassoc, htoll, hlast]
  omega

/-- A parenthesis before a text that is not empty and not digits alone. -/
theorem openToll_of_endsDigits {piece : List Char} (hlays : Lays text piece)
    (hends : EndsDigits text) (rest : List Char) : openToll (text ++ rest) = 1 := by
  have hnext : nextSolid? (text ++ rest) ≠ some ')' := fun hnext => by
    have hidle := hlays.isIdleComma_eq true rest
    rw [isIdleComma, hnext] at hidle
    cases hidle
  refine openToll_eq_one hnext ?_
  obtain ⟨x, hx, hclose⟩ := hends.append rest
  rw [hx]
  exact fun heq => hclose (Option.some.inj heq)

/-- An operand, in parentheses or not. -/
theorem costs_group {isGrouped : Bool} (hfits : e.AllFit) (h : Costs e.text e.due)
    (hdigits : e.bareDigits?.isSome = true → isGrouped = false) :
    Costs (group isGrouped e.text) (isGrouped.toNat + e.due) := by
  cases isGrouped with
  | false => exact h.of_eq (Int.zero_add _).symm
  | true =>
    have hends : EndsDigits e.text :=
      (endsOrDigits hfits).resolve_left fun hsome => Bool.noConfusion (hdigits hsome)
    exact h.paren fun rest => openToll_of_endsDigits (lays_text hfits) hends _

/-- Around digits alone a parenthesis costs nothing. -/
theorem openToll_of_bareDigits? (hfits : e.AllFit) (hdigits : e.bareDigits?.isSome = true)
    (rest : List Char) : openToll (e.text ++ ')' :: rest) = 0 := by
  have hnext : nextSolid? (e.text ++ ')' :: rest) ≠ some ')' := fun hnext => by
    have hidle := (lays_text hfits).isIdleComma_eq true (')' :: rest)
    rw [isIdleComma, hnext] at hidle
    cases hidle
  refine openToll_digits hnext ?_
  rw [List.dropWhile_append_of_pos (text_isDigit_of_bareDigits? hdigits)]
  rfl

/-- Digits cost nothing in parentheses. -/
theorem costs_digits (hfits : e.AllFit) (h : Costs e.text e.due)
    (hdigits : e.bareDigits?.isSome = true) : Costs (group true e.text) e.due :=
  (h.paren (openToll_of_bareDigits? hfits hdigits)).of_eq (Int.zero_add _)

/-! ## Lists -/

/-- Digits alone need no parentheses between commas. -/
theorem isGroupedItem_of_bareDigits? (h : e.bareDigits?.isSome = true) :
    e.isGroupedAt Level.conditional = false :=
  isGroupedAt_of_bareDigits? h (by decide)

/-- What an item of a list costs. -/
def itemDue (e : Expr) : Int :=
  (e.isGroupedAt Level.conditional).toNat + e.due

/-- An item costs what is due for it at its place. -/
theorem costs_item (hfits : e.AllFit) (h : Costs e.text e.due) : Costs (itemText e) (itemDue e) :=
  costs_group hfits h isGroupedItem_of_bareDigits?

/-- Items with commas between them cost what is due for the list. -/
theorem costs_separated (h : ∀ x ∈ es, Costs (itemText x) (itemDue x)) :
    Costs (separated (textsOfList es)) (dueOfList es) := by
  induction es with
  | nil => exact costs_nil
  | cons e rest ih =>
    obtain ⟨he, hrest⟩ := List.forall_mem_cons.1 h
    cases rest with
    | nil => exact he.of_eq (Int.add_zero _).symm
    | cons second others =>
      have hothers : Costs (',' :: ' ' :: _) _ := (ih hrest).after [',', ' '] (by decide)
      exact he.append hothers ⟨_, _, rfl, by decide⟩

/-- Arguments in their parentheses cost what is due for the list, and its toll. -/
theorem costs_arguments (hfits : ∀ x ∈ es, x.AllFit)
    (h : ∀ x ∈ es, Costs (itemText x) (itemDue x)) :
    Costs (argumentsText (textsOfList es)) (argumentsToll es + dueOfList es) := by
  refine (costs_separated h).paren fun rest => ?_
  have hlays : es ≠ [] → Lays (separated (textsOfList es)) (spelledList es) := fun hne =>
    lays_separated (fun x hx => (lays_text (hfits x hx)).group _) hne
  rcases es with _ | ⟨e, _ | ⟨second, others⟩⟩
  · exact openToll_empty rfl
  · have hfit := hfits e (List.mem_cons_self ..)
    by_cases hdigits : e.bareDigits?.isSome = true
    · have hitem : separated (textsOfList [e]) = e.text := by
        show group (e.isGroupedAt Level.conditional) e.text = e.text
        rw [isGroupedItem_of_bareDigits? hdigits]
        rfl
      rw [argumentsToll, if_pos hdigits, hitem]
      exact openToll_of_bareDigits? hfit hdigits rest
    · have hends : EndsDigits (separated (textsOfList [e])) := by
        show EndsDigits (group (e.isGroupedAt Level.conditional) e.text)
        cases e.isGroupedAt Level.conditional with
        | true => exact endsDigits_cons rfl (by decide)
        | false => exact (endsOrDigits hfit).resolve_left hdigits
      rw [argumentsToll, if_neg hdigits]
      exact openToll_of_endsDigits (hlays (List.cons_ne_nil _ _)) hends _
  · have hends : EndsDigits (separated (textsOfList (e :: second :: others))) :=
      (endsOrDigits (hfits e (List.mem_cons_self ..))).followed _ rfl (by decide)
    exact openToll_of_endsDigits (hlays (List.cons_ne_nil _ _)) hends _

/-- Elements, with holes or without, cost what is due for the slots. -/
theorem costs_elements {elements : List (Option Expr)}
    (h : ∀ x, some x ∈ elements → Costs (itemText x) (itemDue x)) :
    Costs (separated (textsWithEnd elements)) (dueOfSlots elements) := by
  induction elements with
  | nil => exact costs_nil
  | cons slot others ih =>
    have hothers : Costs (',' :: ' ' :: separated (textsWithEnd others)) (dueOfSlots others) :=
      (ih fun x hx => h x (List.mem_cons_of_mem _ hx)).after [',', ' '] (by decide)
    cases slot with
    | none =>
      rw [separated_textsWithEnd (Or.inl rfl)]
      exact hothers
    | some e =>
      have he := h e (List.mem_cons_self ..)
      cases others with
      | nil => exact he.of_eq (Int.add_zero _).symm
      | cons second others =>
        rw [separated_textsWithEnd (Or.inr (List.cons_ne_nil second others))]
        exact he.append hothers ⟨_, _, rfl, by decide⟩

/-! ## Trees -/

/-- All characters of a name are parts of identifiers. -/
theorem isIdentifierPart_of_mem_name {name : String} (h : IsName name) {x : Char}
    (hmem : x ∈ name.toList) : isIdentifierPart x = true := by
  obtain ⟨y, ys, hname, hy, hys⟩ := h
  rw [hname] at hmem
  rcases List.mem_cons.1 hmem with rfl | hmem
  · exact isIdentifierPart_of_start hy
  · exact hys x hmem

/-- A name has no parentheses and no points. -/
theorem balance_of_isName {name : String} (h : IsName name) : balance name.toList = 0 := by
  refine balance_eq_zero fun x hx => ?_
  have hpart := isIdentifierPart_of_mem_name h hx
  refine ⟨?_, ?_⟩
  · rintro rfl
    exact absurd hpart (by decide)
  · rintro rfl
    exact absurd hpart (by decide)

/-- So a name costs nothing, whatever follows it. -/
theorem costs_of_isName {name : String} (h : IsName name) : Costs name.toList 0 := by
  have hparen : ∀ x ∈ name.toList, x ≠ '(' := by
    rintro x hx rfl
    exact absurd (isIdentifierPart_of_mem_name h hx) (by decide)
  exact (costs_balance hparen).of_eq (balance_of_isName h)

/-- Two operands with an operator between them cost what both do. -/
theorem costs_infix {operator : InfixOperator} (h : Costs text amount) (h' : Costs text' amount') :
    Costs (infixText operator text text') (amount + amount') := by
  have hoperator : ∀ x ∈ ' ' :: (operator.text.toList ++ [' ']), IsFree x := by
    rcases operator with operator | operator <;> cases operator <;> decide
  have hright := h'.after _ hoperator
  rw [List.cons_append, List.append_assoc] at hright
  exact h.append hright ⟨_, _, rfl, by decide⟩

/-- What is accessed has ended in a digit, or the point costs two. -/
theorem costs_member {access : Access} (h : Costs text amount) (h' : Costs text' amount')
    (hne : text' ≠ []) :
    Costs (text ++ (access.text.toList ++ text')) (amount + (2 * access.points -
      (access == ⟨false, false⟩ && text.getLast?.any Char.isDigit).toNat + amount')) := by
  intro rest
  have hlast : joint (text ++ (access.text.toList ++ text')) rest = joint text' rest := by
    rw [← List.append_assoc, joint_append hne]
  have hjoint : joint text (access.text.toList ++ (text' ++ rest)) =
      (access == ⟨false, false⟩ && text.getLast?.any Char.isDigit).toNat := by
    rcases access with ⟨_ | _, _ | _⟩
    · show (if _ ∧ some '.' = some '.' then (1 : Int) else 0) = _
      cases text.getLast?.any Char.isDigit <;> rfl
    · exact joint_eq_zero (Or.inr (show some '[' ≠ some '.' by decide))
    · exact joint_eq_zero (Or.inr (show some '?' ≠ some '.' by decide))
    · exact joint_eq_zero (Or.inr (show some '?' ≠ some '.' by decide))
  rw [hlast, List.append_assoc, List.append_assoc, h, hjoint, balance_access, h']
  omega

/-- In parentheses the text of an object ends in no digit. -/
theorem getLast?_group_beforeName (e : Expr) :
    (group e.isGroupedBeforeName e.text).getLast?.any Char.isDigit = e.endsInDigit := by
  unfold endsInDigit
  cases e.isGroupedBeforeName with
  | false => rfl
  | true =>
    show ('(' :: e.text ++ [')']).getLast?.any Char.isDigit = false
    rw [List.getLast?_concat]
    rfl

/-- The text of a tree costs what is due for it. -/
theorem costs_text (h : e.AllFit) : Costs e.text e.due := by
  induction e using Expr.induction with
  | h e ih =>
    have hshape := h.root.shape
    have hfits : ∀ x ∈ e.children, x.AllFit := fun x hx => h.child hx
    have hchild : ∀ x ∈ e.children, Costs x.text x.due := fun x hx => ih x hx (h.child hx)
    -- Parentheses around digits cost nothing, so this holds where digits are in none.
    have hgroup : ∀ x ∈ e.children, ∀ isGrouped : Bool,
        (x.bareDigits?.isSome = true → isGrouped = false) →
          Costs (group isGrouped x.text) (isGrouped.toNat + x.due) := fun x hx isGrouped hdigits =>
      costs_group (hfits x hx) (hchild x hx) hdigits
    cases e with
    | literal span raw value =>
      refine costs_balance fun x hx => ?_
      rintro rfl
      rcases spells_cases hshape with hword | hnumeral
      · have hpart := isIdentifierPart_of_mem_name (isName_of_mem_reservedWords hword) hx
        exact absurd hpart (by decide)
      · exact absurd (isPlain_of_mem_numeral hnumeral hx) (by decide)
    | identifier span name => exact costs_of_isName hshape
    | this span =>
      have hthis : IsName "this" := isName_of_mem_reservedWords (by decide)
      exact costs_of_isName hthis
    | array span elements =>
      have helements := costs_elements fun x hx =>
        have hmem : x ∈ (array span elements).children := List.mem_filterMap.2 ⟨some x, hx, rfl⟩
        costs_item (hfits x hmem) (hchild x hmem)
      have hclosed := helements.append (costs_closing (Or.inr rfl)) ⟨_, _, rfl, by decide⟩
      exact (hclosed.after ['['] (by decide)).of_eq (Int.add_zero _)
    | sequence span es =>
      exact costs_separated fun x hx => costs_item (hfits x hx) (hchild x hx)
    | conditional span test consequent alternate =>
      have htest := hgroup test (by simp [children]) _
        fun hdigits => isGroupedAt_of_bareDigits? hdigits
          (by decide : Level.conditional + 1 ≤ Level.primary)
      have hconsequent := hgroup consequent (by simp [children]) _ isGroupedItem_of_bareDigits?
      have halternate := hgroup alternate (by simp [children]) _ isGroupedItem_of_bareDigits?
      have hcolon := halternate.after [' ', ':', ' '] (by decide)
      have hbranches := hconsequent.append hcolon ⟨_, _, rfl, by decide⟩
      have hquestion := hbranches.after [' ', '?', ' '] (by decide)
      exact htest.append hquestion ⟨_, _, rfl, by decide⟩
    | new span callee es =>
      have hcallee := hgroup callee (List.mem_cons_self ..) _ isGroupedAfterNew_of_bareDigits?
      have harguments := costs_arguments (fun x hx => hfits x (List.mem_cons_of_mem _ hx))
        fun x hx => costs_item (hfits x (List.mem_cons_of_mem _ hx))
          (hchild x (List.mem_cons_of_mem _ hx))
      have hconstruct := hcallee.append harguments ⟨_, _, rfl, by decide⟩
      exact hconstruct.after ['n', 'e', 'w', ' '] (by decide)
    | call span callee es optional =>
      have hcallee := hgroup callee (List.mem_cons_self ..) _ isGroupedBeforeLink_of_bareDigits?
      have harguments := costs_arguments (fun x hx => hfits x (List.mem_cons_of_mem _ hx))
        fun x hx => costs_item (hfits x (List.mem_cons_of_mem _ hx))
          (hchild x (List.mem_cons_of_mem _ hx))
      cases optional with
      | true =>
        -- The point of `?.` is paid in full: no digit is before it in this piece, and what comes
        -- last in the piece does not see it.
        have hpoint : Costs ('?' :: '.' :: argumentsText (textsOfList es))
            (2 + (argumentsToll es + dueOfList es)) := fun rest => by
          have hlast : ∀ text, joint ('?' :: '.' :: '(' :: text) rest = joint ('(' :: text) rest :=
            fun text => joint_append (List.cons_ne_nil '(' text) ['?', '.'] rest
          have hlist := harguments rest
          show balance ('?' :: '.' :: (argumentsText (textsOfList es) ++ rest)) = _
          rw [balance_cons (by decide)]
          show 2 + balance (argumentsText (textsOfList es) ++ rest) = _
          rw [hlist, argumentsText, hlast]
          omega
        exact hcallee.append hpoint ⟨_, _, rfl, by decide⟩
      | false =>
        exact (hcallee.append harguments ⟨_, _, rfl, by decide⟩).of_eq
          (congrArg _ (Int.zero_add _).symm)
    | member span object property computed optional =>
      have hobject := hgroup object (by simp [children]) _ isGroupedBeforeLink_of_bareDigits?
      have hproperty := hchild property (by simp [children])
      cases computed with
      | true =>
        have hbracket := hproperty.append (costs_closing (Or.inr rfl)) ⟨_, _, rfl, by decide⟩
        -- A point costs less after a digit only in `.`, and here there is a bracket.
        have haccess : ∀ ends ends' : Bool,
            (Access.mk optional true == ⟨false, false⟩ && ends) =
              (Access.mk optional true == ⟨false, false⟩ && ends') := fun ends ends' => by
          cases optional <;> rfl
        have hmember := @costs_member _ _ _ _ ⟨optional, true⟩ hobject hbracket (by simp)
        rw [haccess _ object.endsInDigit, Int.add_zero] at hmember
        exact hmember
      | false =>
        obtain ⟨nameSpan, name, rfl⟩ := exists_identifier (hshape rfl)
        have hname : name.toList ≠ [] := by
          have hfit := hfits (identifier nameSpan name) (by simp [children])
          obtain ⟨x, xs, heq, -, -⟩ : IsName name := hfit.root.shape
          rw [heq]
          exact List.cons_ne_nil x xs
        have hends := getLast?_group_beforeName object
        -- Digits are in parentheses here, and these cost nothing.
        have hgrouped : Costs (group object.isGroupedBeforeName object.text)
            (object.isGroupedBeforeLink.toNat + object.due) := by
          by_cases hdigits : object.bareDigits?.isSome = true
          · have hlink : object.isGroupedBeforeLink = false :=
              isGroupedBeforeLink_of_bareDigits? hdigits
            rw [isGroupedBeforeName, hdigits, hlink]
            exact (costs_digits (hfits object (by simp [children]))
              (hchild object (by simp [children])) hdigits).of_eq (Int.zero_add _).symm
          · rw [isGroupedBeforeName, Bool.eq_false_iff.2 hdigits]
            exact hobject
        have hmember := @costs_member _ _ _ _ ⟨optional, false⟩ hgrouped hproperty hname
        rw [hends] at hmember
        exact hmember
    | chain span expression => exact hchild expression (List.mem_cons_self ..)
    | update span operator leading argument =>
      have hargument := hchild argument (List.mem_cons_self ..)
      have hoperator : ∀ x ∈ operator.text.toList, IsFree x := by
        cases operator <;> decide
      cases leading with
      | true => exact hargument.after _ hoperator
      | false =>
        have hstart : StartsApart operator.text.toList := by
          cases operator <;> exact ⟨_, _, rfl, by decide⟩
        exact (hargument.append (costs_free hoperator) hstart).of_eq (Int.add_zero _)
    | unary span operator leading argument =>
      have hargument := hgroup argument (List.mem_cons_self ..) _
        fun hdigits => isGroupedAt_of_bareDigits? hdigits (by decide : Level.unary ≤ Level.primary)
      have hoperator : ∀ x ∈ operator.text.toList, IsFree x := by
        cases operator <;> decide
      rw [text, unaryText]
      split
      next => exact (hargument.after [' '] (by decide)).after _ hoperator
      next => exact hargument.after _ hoperator
    | binary span operator left right | logical span operator left right =>
      exact costs_infix
        (hgroup left (by simp [children]) _ fun h => isGroupedBefore_of_bareDigits? h _)
        (hgroup right (by simp [children]) _ fun h => isGroupedAfter_of_bareDigits? h _)

end Source

end Estree
