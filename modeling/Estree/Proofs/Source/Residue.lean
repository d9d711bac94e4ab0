import Estree.Proofs.Grammar.Residue
import Estree.Proofs.Source.Lists
import Estree.Proofs.Source.RoundTrip

/-!
# Writing loses, invents and moves nothing

What a tree is written as says what the tree spells (`lays_text`), as does any text that it has been
read from (`Derives.accounts`); so the two say the same, apart from layout and from points before
`(` (`residue_toSource`).

The comparison goes through the tree. `Expr.spelled` depends on the tree only, the source leaves it
when the layout is taken away, and so does the written text. Points before `(` are left out on the
side of the source alone, since the writer has none there: so the residue of the source without some
of its points is the residue of the text.

> `LaysOn text piece`: going on after an expression, the text leaves the piece, before any text that
> may follow.
> `Lays text piece`: so it does anywhere, and it does not begin with something that closes. All
> texts of trees are of this kind.
> `lays_text`: an induction over the tree, in which each node puts the pieces of its text together.

Only arrays need more than that: their commas stand for holes where no element precedes them, so
what their texts leave is shown for the list of elements as a whole (`residue_elements`).
-/

open Estree.Expr

namespace Estree

open Text Grammar

namespace Source

variable {e : Expr} {es : List Expr} {text text' piece piece' xs : List Char}

/-! ## Texts that say the same wherever they stand -/

/-- The text goes on after an expression and leaves a piece. -/
def LaysOn (text piece : List Char) : Prop :=
  ∀ rest, residue false (text ++ rest) = piece ++ residue false rest

/-- The text begins like an expression and leaves a piece. -/
structure Lays (text piece : List Char) : Prop where
  /-- A comma before it is not idle. -/
  isIdleComma_eq : ∀ opened rest, isIdleComma opened (text ++ rest) = false
  residue_eq : ∀ opened rest, residue opened (text ++ rest) = piece ++ residue false rest

/-- A comma says something before a character that does not close. -/
theorem isIdleComma_solid {x : Char} {opened : Bool} {rest : List Char} (hx : isBlank x = false)
    (hclose : x ∉ [')', ']']) : isIdleComma opened (x :: rest) = false := by
  simp only [List.mem_cons, List.not_mem_nil, or_false, not_or] at hclose
  rw [isIdleComma, nextSolid?_solid hx]
  simp [hclose]

/-- What may stand anywhere may stand after an expression. -/
theorem Lays.on (h : Lays text piece) : LaysOn text piece := h.residue_eq false

/-- A text and what goes on after it. -/
theorem Lays.append (h : Lays text piece) (h' : LaysOn text' piece') :
    Lays (text ++ text') (piece ++ piece') where
  isIdleComma_eq := fun opened rest => by
    rw [List.append_assoc]
    exact h.isIdleComma_eq opened _
  residue_eq := fun opened rest => by
    rw [List.append_assoc, h.residue_eq, h', List.append_assoc]

/-- What goes on may go on again. -/
theorem LaysOn.append (h : LaysOn text piece) (h' : LaysOn text' piece') :
    LaysOn (text ++ text') (piece ++ piece') := by
  intro rest
  rw [List.append_assoc, h, h', List.append_assoc]

/-- Nothing goes on with nothing. -/
theorem LaysOn.nil : LaysOn [] [] := fun _ => rfl

/-- Parentheses and blanks are not left. -/
theorem LaysOn.paren {x : Char} (hx : x = '(' ∨ x = ')') (h : LaysOn text piece) :
    LaysOn (x :: text) piece := by
  intro rest
  rw [List.cons_append, residue_paren hx, h]

/-- A space may stand before what goes on. -/
theorem LaysOn.space (h : LaysOn text piece) : LaysOn (' ' :: text) piece := by
  intro rest
  rw [List.cons_append, residue_blank (by decide), h]

/-- A space may stand before an operand. -/
theorem Lays.space (h : Lays text piece) : Lays (' ' :: text) piece where
  isIdleComma_eq := fun opened rest => by
    rw [isIdleComma, List.cons_append, nextSolid?_blank (by decide)]
    exact h.isIdleComma_eq opened rest
  residue_eq := fun opened rest => by
    rw [List.cons_append, residue_blank (by decide), h.residue_eq]

/-- Whatever precedes an expression, it does not ask for that. -/
theorem Lays.after (h : Lays text piece) (hne : xs ≠ [])
    (hxs : ∀ x ∈ xs, IsLasting x ∧ x ≠ ']') : Lays (xs ++ text) (xs ++ piece) where
  isIdleComma_eq := fun opened rest => by
    obtain ⟨x, xs, rfl⟩ := List.exists_cons_of_ne_nil hne
    obtain ⟨⟨⟨hblank, hx⟩, hclose⟩, -⟩ := List.forall_mem_cons.1 hxs
    refine isIdleComma_solid hblank ?_
    simp only [List.mem_cons, List.not_mem_nil, or_false, not_or] at hx ⊢
    exact ⟨hx.2.1, hclose⟩
  residue_eq := fun opened rest => by
    clear hne
    induction xs generalizing opened with
    | nil => exact h.residue_eq opened rest
    | cons x xs ih =>
      obtain ⟨⟨hx, -⟩, htail⟩ := List.forall_mem_cons.1 hxs
      rw [List.cons_append, List.cons_append, residue_lasting hx, ih htail]
      rfl

/-- A comma before an operand says something. -/
theorem LaysOn.comma (h : Lays text piece) : LaysOn (',' :: text) (',' :: piece) := by
  intro rest
  rw [List.cons_append, residue_comma (h.isIdleComma_eq false rest), h.residue_eq]
  rfl

/-- Plain characters leave themselves. -/
theorem lays_plain (hne : xs ≠ []) (hxs : ∀ x ∈ xs, IsPlain x) : Lays xs xs where
  isIdleComma_eq := fun opened rest => by
    obtain ⟨x, xs, rfl⟩ := List.exists_cons_of_ne_nil hne
    obtain ⟨⟨⟨hblank, hx⟩, hplain⟩, -⟩ := List.forall_mem_cons.1 hxs
    refine isIdleComma_solid hblank ?_
    simp only [List.mem_cons, List.not_mem_nil, or_false, not_or] at hx hplain ⊢
    exact ⟨hx.2.1, hplain.2.1⟩
  residue_eq := fun opened rest => by
    refine residue_append hne fun x hx => ⟨(hxs x hx).1, ?_⟩
    rintro rfl
    exact (hxs '[' hx).2 (by decide)

/-- Parentheses around an operand leave nothing. -/
theorem Lays.group (h : Lays text piece) (isGrouped : Bool) :
    Lays (Source.group isGrouped text) piece := by
  cases isGrouped with
  | false => exact h
  | true =>
    have hclose : LaysOn [')'] [] := .paren (Or.inr rfl) .nil
    refine ⟨fun opened rest => isIdleComma_solid (by decide) (by decide), fun opened rest => ?_⟩
    show residue opened ('(' :: (text ++ [')'] ++ rest)) = _
    rw [residue_paren (Or.inl rfl), List.append_assoc, h.residue_eq, hclose]
    rfl

/-- A separator or an operator with a space on either side. -/
theorem Lays.spaced (h : Lays text piece) (hne : xs ≠ [])
    (hxs : ∀ x ∈ xs, IsLasting x ∧ x ≠ ']') : LaysOn (' ' :: (xs ++ ' ' :: text)) (xs ++ piece) :=
  (h.space.after hne hxs).on.space

/-! ## Lists -/

/-- Items with commas between them leave what the list spells. -/
theorem lays_separated (h : ∀ x ∈ es, Lays (itemText x) x.spelled) (hne : es ≠ []) :
    Lays (separated (textsOfList es)) (spelledList es) := by
  induction es with
  | nil => exact absurd rfl hne
  | cons e rest ih =>
    obtain ⟨he, hrest⟩ := List.forall_mem_cons.1 h
    cases rest with
    | nil =>
      rw [spelledList_singleton]
      exact he
    | cons second others =>
      have hothers := ih hrest (List.cons_ne_nil second others)
      rw [spelledList_cons (List.cons_ne_nil second others)]
      exact he.append (.comma hothers.space)

/-- Arguments in parentheses leave what the list spells. -/
theorem laysOn_arguments (h : ∀ x ∈ es, Lays (itemText x) x.spelled) :
    LaysOn (argumentsText (textsOfList es)) (spelledList es) := by
  have hclose : LaysOn [')'] [] := .paren (Or.inr rfl) .nil
  cases es with
  | nil => exact .paren (Or.inl rfl) hclose
  | cons e rest =>
    have hseparated := (lays_separated h (List.cons_ne_nil e rest)).on.append hclose
    rw [List.append_nil] at hseparated
    exact .paren (Or.inl rfl) hseparated

/-- What is written between the brackets of an array. Whether a comma before it is idle tells
whether there are elements. -/
theorem residue_elements {elements : List (Option Expr)} (rest : List Char)
    (h : ∀ x, some x ∈ elements → Lays (itemText x) x.spelled) :
    (∀ opened, isIdleComma opened (separated (textsWithEnd elements) ++ ']' :: rest) =
        (elements.isEmpty && !opened)) ∧
      residue true (separated (textsWithEnd elements) ++ ']' :: rest) =
        spelledSlots elements ++ ']' :: residue false rest := by
  induction elements with
  | nil => exact ⟨fun opened => by cases opened <;> rfl, rfl⟩
  | cons slot others ih =>
    obtain ⟨hidle, hresidue⟩ := ih fun x hx => h x (List.mem_cons_of_mem _ hx)
    cases slot with
    | none =>
      -- A hole counts as begun, so the comma behind it is never idle.
      have hidle' := hidle true
      rw [Bool.not_true, Bool.and_false] at hidle'
      rw [separated_textsWithEnd (Or.inl rfl)]
      refine ⟨fun opened => isIdleComma_solid (by decide) (by decide), ?_⟩
      show residue true (',' :: ' ' :: (separated (textsWithEnd others) ++ ']' :: rest)) =
        ',' :: (spelledSlots others ++ ']' :: residue false rest)
      rw [residue_comma (by rw [isIdleComma, nextSolid?_blank (by decide)]; exact hidle'),
        residue_blank (by decide), hresidue]
    | some e =>
      have he := h e (List.mem_cons_self ..)
      cases others with
      | nil =>
        refine ⟨fun opened => he.isIdleComma_eq opened _, ?_⟩
        show residue true (itemText e ++ ']' :: rest) = _
        rw [he.residue_eq, spelledSlots_singleton]
        exact congrArg _ (residue_lasting (by decide))
      | cons second others =>
        have hidle' : isIdleComma false _ = false := hidle false
        rw [separated_textsWithEnd (Or.inr (List.cons_ne_nil second others)), List.append_assoc]
        refine ⟨fun opened => he.isIdleComma_eq opened _, ?_⟩
        show residue true (itemText e ++ ',' :: ' ' ::
          (separated (textsWithEnd (second :: others)) ++ ']' :: rest)) = _
        rw [he.residue_eq,
          residue_comma (by rw [isIdleComma, nextSolid?_blank (by decide)]; exact hidle'),
          residue_blank (by decide), hresidue,
          spelledSlots_cons (List.cons_ne_nil second others), List.append_assoc]
        rfl

/-- Elements in brackets leave what the array spells. -/
theorem lays_array {elements : List (Option Expr)}
    (h : ∀ x, some x ∈ elements → Lays (itemText x) x.spelled) :
    Lays (elementsText elements (textsOfSlots elements))
      ('[' :: (spelledSlots elements ++ [']'])) where
  isIdleComma_eq := fun opened rest => isIdleComma_solid (by decide) (by decide)
  residue_eq := fun opened rest => by
    have htext : elementsText elements (textsOfSlots elements) ++ rest =
        '[' :: (separated (textsWithEnd elements) ++ ']' :: rest) := by
      show '[' :: (separated (textsWithEnd elements) ++ [']']) ++ rest = _
      simp
    have helements := (residue_elements rest h).2
    rw [htext, residue_lasting (by decide)]
    show '[' :: residue true _ = _
    rw [helements]
    simp

/-! ## Trees -/

/-- Infix operators are lasting characters, and some. -/
theorem isLasting_infix (operator : InfixOperator) :
    operator.text.toList ≠ [] ∧ ∀ x ∈ operator.text.toList, IsLasting x ∧ x ≠ ']' := by
  rcases operator with operator | operator <;> cases operator <;> decide

/-- So are unary operators. -/
theorem isLasting_unary (operator : UnaryOperator) :
    operator.text.toList ≠ [] ∧ ∀ x ∈ operator.text.toList, IsLasting x ∧ x ≠ ']' := by
  cases operator <;> decide

/-- Updates are plain characters, and some. -/
theorem isPlain_update (operator : UpdateOperator) :
    operator.text.toList ≠ [] ∧ ∀ x ∈ operator.text.toList, IsPlain x := by
  cases operator <;> decide

/-- A name leaves itself. -/
theorem lays_of_isName {name : String} (h : IsName name) : Lays name.toList name.toList := by
  obtain ⟨x, xs, hname, hx, hxs⟩ := h
  rw [hname]
  refine lays_plain (List.cons_ne_nil x xs) (List.forall_mem_cons.2 ⟨?_, fun y hy => ?_⟩)
  · exact isPlain_of_isIdentifierPart (isIdentifierPart_of_start hx)
  · exact isPlain_of_isIdentifierPart (hxs y hy)

/-- An access begins wherever an expression ends. -/
theorem laysOn_access {access : Access} (h : Lays text piece) :
    LaysOn (access.text.toList ++ text) (access.text.toList ++ piece) := by
  have hlasting : access.text.toList ≠ [] ∧ ∀ x ∈ access.text.toList, IsLasting x ∧ x ≠ ']' := by
    rcases access with ⟨_ | _, _ | _⟩ <;> decide
  exact (h.after hlasting.1 hlasting.2).on

/-- The sign of an optional call may stand before arguments. -/
theorem laysOn_call {optional : Bool} (h : LaysOn text piece) :
    LaysOn ((if optional then ['?', '.'] else []) ++ text)
      ((if optional then ['?', '.'] else []) ++ piece) := by
  cases optional with
  | false => exact h
  | true =>
    intro rest
    show residue false ('?' :: '.' :: (text ++ rest)) = '?' :: '.' :: (piece ++ residue false rest)
    rw [residue_lasting (by decide), residue_lasting (by decide)]
    exact congrArg (fun out => '?' :: '.' :: out) (h rest)

/-- Operands leave themselves with the operator between them. -/
theorem lays_infixText {operator : InfixOperator} (h : Lays text piece) (h' : Lays text' piece') :
    Lays (infixText operator text text') (piece ++ (operator.text.toList ++ piece')) := by
  obtain ⟨hne, hlasting⟩ := isLasting_infix operator
  exact h.append (h'.spaced hne hlasting)

/-- The text of a tree says what the tree spells. -/
theorem lays_text (h : e.AllFit) : Lays e.text e.spelled := by
  induction e using Expr.induction with
  | h e ih =>
    have hshape := h.root.shape
    have hchild : ∀ x ∈ e.children, Lays x.text x.spelled := fun x hx => ih x hx (h.child hx)
    cases e with
    | literal span raw value =>
      rcases spells_cases hshape with hword | hnumeral
      · exact lays_of_isName (isName_of_mem_reservedWords hword)
      · exact lays_plain hnumeral.ne_nil fun x hx => isPlain_of_mem_numeral hnumeral hx
    | identifier span name => exact lays_of_isName hshape
    | this span =>
      have hthis : IsName "this" := isName_of_mem_reservedWords (by decide)
      exact lays_of_isName hthis
    | array span elements =>
      exact lays_array fun x hx => (hchild x (List.mem_filterMap.2 ⟨some x, hx, rfl⟩)).group _
    | sequence span es =>
      have hlength : 2 ≤ es.length := hshape
      have hne : es ≠ [] := by
        rintro rfl
        exact absurd hlength (by decide)
      exact lays_separated (fun x hx => (hchild x hx).group _) hne
    | conditional span test consequent alternate =>
      have htest := (hchild test (by simp [children])).group
        (test.isGroupedAt (Level.conditional + 1))
      have hconsequent := (hchild consequent (by simp [children])).group
        (consequent.isGroupedAt Level.conditional)
      have halternate := (hchild alternate (by simp [children])).group
        (alternate.isGroupedAt Level.conditional)
      have hmark : ∀ x ∈ ['?', ':'], ∀ y ∈ [x], IsLasting y ∧ y ≠ ']' := by decide
      have hcolon := halternate.spaced (List.cons_ne_nil ':' []) (hmark ':' (by decide))
      have hquestion := (hconsequent.append hcolon).spaced (List.cons_ne_nil '?' [])
        (hmark '?' (by decide))
      exact htest.append hquestion
    | new span callee es =>
      have hcallee := (hchild callee (List.mem_cons_self ..)).group callee.isGroupedAfterNew
      have hes := laysOn_arguments fun x hx => (hchild x (List.mem_cons_of_mem _ hx)).group _
      have hnew : ∀ x ∈ "new".toList, IsLasting x ∧ x ≠ ']' := by decide
      exact (hcallee.append hes).space.after (by decide) hnew
    | call span callee es optional =>
      have hcallee := (hchild callee (List.mem_cons_self ..)).group callee.isGroupedBeforeLink
      have hes := laysOn_arguments fun x hx => (hchild x (List.mem_cons_of_mem _ hx)).group _
      exact hcallee.append (laysOn_call hes)
    | member span object property computed optional =>
      have hobject := hchild object (by simp [children])
      have hproperty := hchild property (by simp [children])
      cases computed with
      | true =>
        have hbracket : LaysOn [']'] [']'] := fun rest => residue_lasting (by decide)
        exact (hobject.group _).append (laysOn_access (hproperty.append hbracket))
      | false =>
        have hnamed := hproperty.append .nil
        rw [List.append_nil] at hnamed
        exact (hobject.group _).append (laysOn_access hnamed)
    | chain span expression => exact hchild expression (List.mem_cons_self ..)
    | update span operator leading argument =>
      have hargument := hchild argument (List.mem_cons_self ..)
      obtain ⟨hne, hplain⟩ := isPlain_update operator
      have hoperator := lays_plain hne hplain
      cases leading with
      | true =>
        refine hargument.after hne fun x hx => ⟨(hplain x hx).1, ?_⟩
        rintro rfl
        exact (hplain ']' hx).2 (by decide)
      | false => exact hargument.append hoperator.on
    | unary span operator leading argument =>
      obtain ⟨hne, hlasting⟩ := isLasting_unary operator
      have hargument := (hchild argument (List.mem_cons_self ..)).group
        (argument.isGroupedAt Level.unary)
      rw [text, unaryText]
      split
      next => exact hargument.space.after hne hlasting
      next => exact hargument.after hne hlasting
    | binary span operator left right | logical span operator left right =>
      exact lays_infixText ((hchild left (by simp [children])).group _)
        ((hchild right (by simp [children])).group _)

end Source

namespace Expr

open Source

/-- A text says what the tree spells that it is read as, but for some points before `(`. -/
theorem residue_of_reads {source : String} {e : Expr} (h : Reads source e) :
    Sheds false false source.toList e.spelled := by
  obtain ⟨_, c', hderives, hend⟩ := h
  have haccounts : Contributes source.toList e.spelled c'.rest := hderives.accounts
  have hall := haccounts.skips (skips_pastBlanks c')
  rw [hend] at hall
  have hout := hall false false [] ⟨[], .nil, rfl⟩
  rwa [List.append_nil] at hout

/-- Writing what has been read loses, invents and moves nothing: apart from layout, and from points
before `(`, the text written says what the text read did. -/
theorem residue_toSource {limits : Limits} {source text : String} {e : Expr}
    (hread : parseWithin limits source = .ok e) (hwritten : e.toSource = .ok text) :
    ∃ undotted, Undotted false source.toList undotted ∧
      residue false undotted = residue false text.toList := by
  have hreads := reads_of_parseWithin_eq_ok hread
  have hfits := hreads.isOperand.allFit
  obtain rfl := text_of_toSource hfits hwritten
  have htext := (lays_text hfits).residue_eq false []
  rw [List.append_nil] at htext
  obtain ⟨undotted, hundotted, hresidue⟩ := residue_of_reads hreads
  refine ⟨undotted, hundotted, ?_⟩
  rw [hresidue, String.toList_ofList, htext]
  exact (List.append_nil _).symm

/-- Holes, idle commas, parentheses and a point that says nothing. -/
theorem residue_toSource_array : ∃ e, parseWithin .standard "[, a.((b) ,), ,]" = .ok e ∧
    e.toSource = .ok "[, a(b), , ]" ∧
    ∃ undotted, Undotted false "[, a.((b) ,), ,]".toList undotted ∧
      residue false undotted = residue false "[, a(b), , ]".toList := by
  have hcheck : (parseWithin .standard "[, a.((b) ,), ,]").toOption.any
      (fun e => e.toSource.toOption == some "[, a(b), , ]") = true := by
    decide +kernel
  obtain ⟨e, hread, hcheck⟩ := exists_of_any_toOption hcheck
  have hwritten := eq_ok_of_toOption (eq_of_beq hcheck)
  exact ⟨e, hread, hwritten, residue_toSource hread hwritten⟩

end Expr

end Estree
