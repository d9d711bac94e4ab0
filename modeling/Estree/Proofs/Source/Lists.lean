import Estree.Proofs.Grammar.Absent
import Estree.Proofs.Source.Reading
import Estree.Proofs.Source.Text

/-!
# Texts between commas

Sequences, arguments and the elements of arrays are written as items with a comma and a space
between them. `ReadsItem` says of one item that it is read as the tree that it was written for,
whatever ends it; the main results say the same of whole lists.

> `derives_expressions`: items between commas are read as these trees, and so is a sequence of them
> (`readsExpressions_sequence`).

> `derives_argumentList`: so are the items of a list of arguments, which may be empty.

> `derives_elements`: so are the elements of an array, holes included.

All are inductions over the list in which a comma ends an item and the space after it is skipped.
They differ in what they say of nothing at all. No expression is a fault in a sequence, an empty
list in arguments and a hole in an array, where each way needs that nothing is read before a comma
or a bracket (`derives_noExpression`). A hole at the end has a comma of its own, which a list that
ends in a tree has not: `textsWithEnd` is the list of texts with the empty one after such a hole.
-/

open Estree.Expr

namespace Estree

open Grammar Token

namespace Source

/-- The text of a tree as an item of a list. -/
def itemText (e : Expr) : List Char :=
  group (e.isGroupedAt Level.conditional) e.text

/-- The tree is read again where it has been written as an item. -/
structure ReadsItem (depth : Nat) (e : Expr) : Prop where
  starts : Starts (itemText e)
  reads : ReadsExpression depth (itemText e) e

variable {depth : Nat}

/-- The first item of a list, a comma, and the others. -/
theorem separated_textsOfList (e second : Expr) (others : List Expr) (rest : List Char) :
    separated (textsOfList (e :: second :: others)) ++ rest =
      itemText e ++ ',' :: ' ' :: (separated (textsOfList (second :: others)) ++ rest) := by
  show itemText e ++ ',' :: ' ' :: separated (textsOfList (second :: others)) ++ rest = _
  rw [List.append_assoc]
  rfl

/-- A list with items begins with no blank. -/
theorem starts_separated {e : Expr} {others : List Expr} (he : ReadsItem depth e) :
    Starts (separated (textsOfList (e :: others))) := by
  cases others with
  | nil => exact he.starts
  | cons second others => exact he.starts.append

/-- After a comma and a space the next item is at hand. -/
theorem pastBlanks_rest_comma {c : Cursor} {xs : List Char}
    (hc : c.pastBlanks.rest = ',' :: ' ' :: xs) (hxs : xs.dropWhile Text.isBlank = xs) :
    (c.pastBlanks.skip 1).pastBlanks.rest = xs := by
  rw [Cursor.pastBlanks_rest, Cursor.skip_rest, hc]
  show (' ' :: xs).dropWhile Text.isBlank = xs
  rw [List.dropWhile_cons_of_pos (by rfl), hxs]

/-- Nothing is skipped before a character that is no blank. -/
theorem dropWhile_cons_nonblank {x : Char} {xs : List Char} (hx : Text.isBlank x = false) :
    (x :: xs).dropWhile Text.isBlank = x :: xs :=
  List.dropWhile_cons_of_neg (Bool.eq_false_iff.1 hx)

/-! ## Nothing between commas -/

/-- Where a list ends or goes on, there is no expression. -/
theorem derives_noExpression {c : Cursor} (hc : ∀ x ∈ c.pastBlanks.rest.head?, x ∈ [')', ']', ','])
    (hdepth : 4 ≤ depth) : Derives depth .expression c none c.pastBlanks := by
  obtain ⟨below, rfl⟩ := Nat.exists_eq_add_of_le' hdepth
  refine derives_expression_none_iff.2 ⟨fun hbegins => ?_, rfl⟩
  cases hrest : c.pastBlanks.rest with
  | nil =>
    rw [hrest] at hbegins
    exact hbegins
  | cons x rest =>
    rw [hrest] at hbegins hc
    have hkinds : ∀ x ∈ [')', ']', ','], x ∉ ['?', '(', '[', '!', '~', '+', '-'] ∧
        Text.isIdentifierStart x = false ∧ x.isDigit = false ∧ x ≠ '.' := by
      decide
    obtain ⟨hsymbol, hword, hdigit, hpoint⟩ := hkinds x (hc x rfl)
    rcases hbegins with hbegins | hbegins | hbegins | ⟨hbegins, -⟩
    · exact hsymbol hbegins
    · exact Bool.eq_false_iff.1 hword hbegins
    · exact Bool.eq_false_iff.1 hdigit hbegins
    · exact hpoint hbegins

/-! ## Sequences -/

/-- Expressions with commas between them are read one by one. -/
theorem derives_expressions {es : List Expr} (hes : ∀ e ∈ es, ReadsItem depth e) (hne : es ≠ []) :
    ∀ {isFirst : Bool} {c : Cursor} {rest : List Char},
      c.pastBlanks.rest = separated (textsOfList es) ++ rest → Closes rest →
      ∃ es' c', Derives depth (.expressions isFirst) c es' c' ∧ es'.map unplaced = es.map unplaced ∧
        c'.rest = rest := by
  induction es with
  | nil => exact absurd rfl hne
  | cons e rest' ih =>
    intro isFirst c rest hc hrest
    obtain ⟨hitem, hitems⟩ := List.forall_mem_cons.1 hes
    cases rest' with
    | nil =>
      obtain ⟨e', c', hderives, hsame, hc'⟩ := hitem.reads c rest hc hrest.followsExpression
      rw [hrest.dropWhile_eq] at hc'
      refine ⟨[e'], c'.pastBlanks, .lastExpression hderives nofun ?_, ?_, hc'⟩
      · rw [hc']
        exact hrest.head?_ne_comma
      · rw [List.map_singleton, hsame, List.map_singleton]
    | cons second others =>
      have htail : Starts (separated (textsOfList (second :: others))) :=
        starts_separated (List.forall_mem_cons.1 hitems).1
      rw [separated_textsOfList] at hc
      obtain ⟨e', c₁, hderives, hsame, hc₁⟩ :=
        hitem.reads c _ hc (.closer (Or.inr (Or.inr rfl)))
      have hcomma : c₁.pastBlanks.rest =
          ',' :: ' ' :: (separated (textsOfList (second :: others)) ++ rest) := hc₁
      obtain ⟨es', c', hes', hsames, hc'⟩ :=
        ih hitems (List.cons_ne_nil _ _) (pastBlanks_rest_comma hcomma htail.dropWhile_eq) hrest
      refine ⟨e' :: es', c', .moreExpressions hderives (by rw [hcomma]; rfl) hes', ?_, hc'⟩
      rw [List.map_cons, hsame, hsames]
      rfl

/-- A sequence is read as one. -/
theorem readsExpressions_sequence {span : Span} {es : List Expr} (hes : ∀ e ∈ es, ReadsItem depth e)
    (hlength : 2 ≤ es.length) :
    ReadsExpressions depth (separated (textsOfList es)) (.sequence span es) := by
  intro c rest hc hrest
  have hne : es ≠ [] := by
    rintro rfl
    exact absurd hlength (by decide)
  obtain ⟨es', c', hderives, hsame, hc'⟩ := derives_expressions hes hne hc hrest
  refine ⟨es', c', hderives, hc', fun grouped? => ?_⟩
  have hlength' : es'.length = es.length := by
    have hlengths := congrArg List.length hsame
    rwa [List.length_map, List.length_map] at hlengths
  obtain ⟨first, second, others, rfl⟩ : ∃ first second others, es' = first :: second :: others := by
    rcases es' with _ | ⟨first, _ | ⟨second, others⟩⟩
    · exact absurd (hlength'.symm ▸ hlength) (by simp)
    · exact absurd (hlength'.symm ▸ hlength) (by simp)
    · exact ⟨first, second, others, rfl⟩
  refine ⟨_, rfl, ?_⟩
  rw [SameAs, unplaced, unplaced, unplacedList_eq_map, unplacedList_eq_map, hsame]

/-! ## Arguments -/

/-- Arguments follow one another as the expressions of a sequence do. -/
theorem derives_argumentList_of_expressions :
    ∀ {isFirst : Bool} {c c' : Cursor} {es : List Expr},
      Derives depth (.expressions isFirst) c es c' → Derives depth .argumentList c es c'
  | _, _, _, _, .lastExpression he _ hcomma => .lastArgument he hcomma
  | _, _, _, _, .moreExpressions he hcomma hes =>
    .moreArguments he hcomma (derives_argumentList_of_expressions hes)

/-- The arguments of a call are read again up to the bracket that closes them. -/
theorem derives_argumentList {es : List Expr} (hes : ∀ e ∈ es, ReadsItem depth e)
    (hdepth : 4 ≤ depth) {c : Cursor} {rest : List Char}
    (hc : c.pastBlanks.rest = separated (textsOfList es) ++ ')' :: rest) :
    ∃ es' c', Derives depth .argumentList c es' c' ∧ es'.map unplaced = es.map unplaced ∧
      c'.rest = ')' :: rest := by
  by_cases hne : es = []
  · obtain rfl := hne
    have hc₀ : c.pastBlanks.rest = ')' :: rest := hc
    have hlast := Derives.lastArgument (derives_noExpression (c := c) (by simp [hc₀]) hdepth)
      (by rw [c.pastBlanks_pastBlanks, hc₀]; exact nofun)
    exact ⟨[], _, hlast, rfl, pastBlanks_pastBlanks_rest hc₀⟩
  · obtain ⟨es', c', hderives, hsame, hc'⟩ :=
      @derives_expressions depth es hes hne true c (')' :: rest) hc (.closer (Or.inl rfl))
    exact ⟨es', c', derives_argumentList_of_expressions hderives, hsame, hc'⟩

/-- Arguments are read with the parenthesis that closes them. -/
theorem derives_arguments {es : List Expr} {c : Cursor} {rest : List Char}
    (hes : ∀ e ∈ es, ReadsItem depth e) (hdepth : 4 ≤ depth)
    (hc : c.rest = argumentsText (textsOfList es) ++ rest) :
    ∃ es' c', Derives depth .arguments (c.skip 1) es' c' ∧ es'.map unplaced = es.map unplaced ∧
      c'.rest = rest := by
  have hc₁ : (c.skip 1).rest = separated (textsOfList es) ++ ')' :: rest := by
    rw [Cursor.skip_rest, hc]
    show separated (textsOfList es) ++ [')'] ++ rest = _
    rw [List.append_assoc]
    rfl
  have hc₂ : (c.skip 1).pastBlanks.rest = separated (textsOfList es) ++ ')' :: rest := by
    cases es with
    | nil =>
      rw [Cursor.pastBlanks_rest, hc₁]
      rfl
    | cons e others => exact (starts_separated (List.forall_mem_cons.1 hes).1).pastBlanks_rest hc₁
  obtain ⟨es', c', hderives, hsame, hc'⟩ := derives_argumentList hes hdepth hc₂
  refine ⟨es', c'.skip 1, .arguments hderives (by rw [hc']; rfl), hsame, ?_⟩
  rw [Cursor.skip_rest, hc']
  rfl

/-! ## Elements -/

/-- The text of an element; a hole has none. -/
def slotText (slot : Option Expr) : List Char :=
  slot.elim [] itemText

/-- The texts of elements with the empty one after a hole at the end. -/
def textsWithEnd (elements : List (Option Expr)) : List (List Char) :=
  if elements.getLast?.any Option.isNone then textsOfSlots elements ++ [[]]
  else textsOfSlots elements

/-- One element more, with no text if it is a hole. -/
theorem textsOfSlots_cons (slot : Option Expr) (rest : List (Option Expr)) :
    textsOfSlots (slot :: rest) = slotText slot :: textsOfSlots rest := by
  cases slot <;> rfl

/-- All elements have a comma after them, but a tree at the end. -/
theorem separated_textsWithEnd {slot : Option Expr} {rest : List (Option Expr)}
    (h : slot = none ∨ rest ≠ []) :
    separated (textsWithEnd (slot :: rest)) =
      slotText slot ++ ',' :: ' ' :: separated (textsWithEnd rest) := by
  cases rest with
  | nil =>
    obtain rfl : slot = none := h.resolve_right fun hne => hne rfl
    rfl
  | cons second others =>
    rw [textsWithEnd, textsWithEnd, List.getLast?_cons_cons, textsOfSlots_cons slot,
      textsOfSlots_cons second]
    split <;> rfl

/-- No blank is at the start of what is written for elements. -/
theorem dropWhile_elements {elements : List (Option Expr)} {rest : List Char}
    (h : ∀ e, some e ∈ elements → ReadsItem depth e) :
    (separated (textsWithEnd elements) ++ ']' :: rest).dropWhile Text.isBlank =
      separated (textsWithEnd elements) ++ ']' :: rest := by
  cases elements with
  | nil => rfl
  | cons slot others =>
    by_cases hcomma : slot = none ∨ others ≠ []
    · rw [separated_textsWithEnd hcomma]
      cases slot with
      | none => exact dropWhile_cons_nonblank rfl
      | some e =>
        rw [List.append_assoc]
        exact (h e (List.mem_cons_self ..)).starts.dropWhile_eq
    · obtain ⟨hsome, hothers⟩ := not_or.1 hcomma
      obtain rfl : others = [] := not_not.1 hothers
      obtain ⟨e, rfl⟩ := Option.ne_none_iff_exists'.1 hsome
      exact (h e (List.mem_cons_self ..)).starts.dropWhile_eq

/-- Elements are read one by one, holes among them. -/
theorem derives_elements {elements : List (Option Expr)}
    (h : ∀ e, some e ∈ elements → ReadsItem depth e) (hdepth : 4 ≤ depth) :
    ∀ {c : Cursor} {rest : List Char},
      c.pastBlanks.rest = separated (textsWithEnd elements) ++ ']' :: rest →
      ∃ elements' c', Derives depth .elements c elements' c' ∧
        elements'.map (Option.map unplaced) = elements.map (Option.map unplaced) ∧
        c'.rest = ']' :: rest := by
  induction elements with
  | nil =>
    intro c rest hc
    have hc₀ : c.pastBlanks.rest = ']' :: rest := hc
    have hlast := Derives.lastElement (derives_noExpression (c := c) (by simp [hc₀]) hdepth)
      (by rw [c.pastBlanks_pastBlanks, hc₀]; exact nofun)
    exact ⟨[], _, hlast, rfl, pastBlanks_pastBlanks_rest hc₀⟩
  | cons slot others ih =>
    intro c rest hc
    have hothers : ∀ e, some e ∈ others → ReadsItem depth e := fun e he =>
      h e (List.mem_cons_of_mem _ he)
    -- Only a tree at the end has no comma after it.
    by_cases hcomma : slot = none ∨ others ≠ []
    · rw [separated_textsWithEnd hcomma, List.append_assoc] at hc
      obtain ⟨slot', c₁, hderives, hsame, hc₁⟩ : ∃ slot' c₁, Derives depth .expression c slot' c₁ ∧
          slot'.map unplaced = slot.map unplaced ∧
          c₁.pastBlanks.rest =
            ',' :: ' ' :: (separated (textsWithEnd others) ++ ']' :: rest) := by
        cases slot with
        | none =>
          have hc₀ : c.pastBlanks.rest =
              ',' :: ' ' :: (separated (textsWithEnd others) ++ ']' :: rest) := hc
          exact ⟨none, c.pastBlanks, derives_noExpression (by simp [hc₀]) hdepth, rfl,
            pastBlanks_pastBlanks_rest hc₀⟩
        | some e =>
          obtain ⟨e', c₁, hderives, hsame, hc₁⟩ :=
            (h e (List.mem_cons_self ..)).reads c _ hc (.closer (Or.inr (Or.inr rfl)))
          exact ⟨some e', c₁, hderives, congrArg some hsame, hc₁⟩
      obtain ⟨elements', c', helements, hsames, hc'⟩ :=
        ih hothers (pastBlanks_rest_comma hc₁ (dropWhile_elements hothers))
      refine ⟨slot' :: elements', c', .moreElements hderives (by rw [hc₁]; rfl) helements, ?_, hc'⟩
      rw [List.map_cons, hsame, hsames]
      rfl
    · obtain ⟨hsome, hnil⟩ := not_or.1 hcomma
      obtain rfl : others = [] := not_not.1 hnil
      obtain ⟨e, rfl⟩ := Option.ne_none_iff_exists'.1 hsome
      obtain ⟨e', c', hderives, hsame, hc'⟩ :=
        (h e (List.mem_cons_self ..)).reads c (']' :: rest) hc (.closer (Or.inr (Or.inl rfl)))
      refine ⟨[some e'], c'.pastBlanks, .lastElement hderives ?_, ?_, hc'⟩
      · rw [hc']
        exact nofun
      · exact congrArg (fun x => [some x]) hsame

end Source

end Estree
