import Estree.Proofs.Source.Reading
import Estree.Proofs.Source.Text

/-!
# How the text of a tree begins

Two questions about the start of a text decide how it is read. Is it a blank? And is it a unary
operator, so that the reader leaves the run that the text was written as?

> `starts_text`: the text of a tree that fits together begins with no blank.

> `opensNoOperator_text`: no unary operator is read at its start unless the tree is a unary one or
> its first word is `typeof`, `void` or `delete`, for trees that bind as tightly as operands do.

Both go down the spine of the tree, as a text begins as that of its object or its left operand does,
or with a parenthesis of its own. At the end of the spine there is a name, a number, a string or a
bracket. A name is the only one that can look like an operator, and it does so only as a whole word:
`typeofx` is none, because the leading word of the text is compared (`isName_leadingWord`).
-/

open Estree.Expr

namespace Estree

open Token

/-! ## Levels -/

/-- Operators join what is looser than an operand. -/
theorem InfixOperator.level_lt_unary (operator : InfixOperator) : operator.level < Level.unary := by
  rcases operator with operator | operator <;> cases operator <;> decide

namespace Expr

variable {e : Expr}

/-- Accesses and calls bind as calls do. -/
theorem level_of_isLink (h : e.isLink = true) : e.level = Level.call := by
  cases e <;> first | rfl | cases h

/-- What can be updated binds at least as tightly. -/
theorem level_of_isPlace (h : e.isPlace = true) : Level.call ≤ e.level := by
  cases e with
  | identifier => exact (by decide : Level.call ≤ Level.primary)
  | member => exact Nat.le_refl _
  | _ => cases h

/-- A unary tree binds less tightly than a call. -/
theorem isUnary_of_level (h : Level.call ≤ e.level) : e.isUnary = false := by
  cases e with
  | unary => exact absurd h (by decide : ¬Level.call ≤ Level.unary)
  | _ => rfl

/-- Without parentheses a link follows a run. -/
theorem ungroupedBeforeLink (h : e.isGroupedBeforeLink = false) :
    e.isChain = false ∧ Level.call ≤ e.level := by
  obtain ⟨hchain, hlevel⟩ := Bool.or_eq_false_iff.1 h
  exact ⟨hchain, Nat.not_lt.1 (of_decide_eq_false hlevel)⟩

end Expr

namespace Source

variable {e : Expr} {text : List Char}

/-! ## Words and numbers -/

/-- A name begins with no blank. -/
theorem isName_starts {name : String} (h : IsName name) : Starts name.toList := by
  obtain ⟨x, xs, hname, hx, -⟩ := h
  refine ⟨x, xs, hname, Bool.eq_false_iff.2 fun hblank => ?_⟩
  rw [Text.isIdentifierStart_of_isBlank hblank] at hx
  cases hx

/-- A name is found as a word where nothing goes on with it. -/
theorem isName_leadingWord_append {name : String} {rest : List Char} (h : IsName name)
    (hrest : ∀ x ∈ rest.head?, Text.isIdentifierPart x = false) :
    Text.leadingWord (name.toList ++ rest) = name.toList := by
  obtain ⟨x, xs, hname, hx, hxs⟩ := h
  rw [hname]
  exact Text.leadingWord_append hx hxs hrest

/-- A name that no further letter follows is the whole leading word. -/
theorem isName_leadingWord {name : String} {c c' : Cursor} (h : IsName name)
    (hc : c.Passes name.toList c') (hrest : ∀ x ∈ c'.rest.head?, Text.isIdentifierPart x = false) :
    Text.leadingWord c.rest = name.toList := by
  rw [hc.rest_eq]
  exact isName_leadingWord_append h hrest

/-- The name of a member access is read where nothing goes on with it. -/
theorem propertyName_of_isName {name : String} {c c' : Cursor} (h : IsName name)
    (hc : c.Passes name.toList c') (hrest : ∀ x ∈ c'.rest.head?, Text.isIdentifierPart x = false) :
    c.pastBlanks = c ∧ c.rest.head? ≠ some '(' ∧
      Leaf.propertyName c =
        .ok (.identifier ⟨c.position, c.position + Text.utf8Size name.toList⟩ name) c' := by
  have hword := isName_leadingWord h hc hrest
  have hne : Text.leadingWord c.rest ≠ [] := hword ▸ (isName_starts h).ne_nil
  obtain ⟨x, hx, hstart⟩ := Text.leadingWord_ne_nil_iff.1 hne
  obtain ⟨xs, hcons⟩ := List.head?_eq_some_iff.1 hx
  refine ⟨?_, ?_, ?_⟩
  · refine Cursor.pastBlanks_of_cons hcons (Bool.eq_false_iff.2 fun hblank => ?_)
    rw [Text.isIdentifierStart_of_isBlank hblank] at hstart
    cases hstart
  · rw [hcons]
    rintro ⟨⟩
    exact Text.not_mem_symbols hstart (by decide)
  · have hproperty := Leaf.propertyName_eq_ok.2 ⟨hne, rfl, rfl⟩
    rwa [hword, String.ofList_toList, ← hc.eq_skip] at hproperty

/-- Numbers begin with no blank and with no operator. -/
theorem opensNoOperator_number {raw : List Char} (h : IsNumeral raw) :
    Starts raw ∧ OpensNoOperator raw := by
  obtain ⟨x, hx, hkind⟩ := Text.head?_of_numberStart (Pattern.numberStart_of_isNumeral h)
  obtain ⟨xs, rfl⟩ := List.head?_eq_some_iff.1 ((List.append_nil raw) ▸ hx)
  have hfacts : Text.isBlank x = false ∧ Text.isIdentifierStart x = false ∧ x ∉ unarySymbols := by
    rcases hkind with hdigit | rfl
    · exact ⟨Text.isBlank_of_isDigit hdigit, Text.isIdentifierStart_of_isDigit hdigit,
        Text.not_mem_of_isDigit hdigit rfl⟩
    · exact ⟨rfl, Text.isIdentifierStart_of_mem_symbols (by decide), by decide⟩
  refine ⟨⟨x, xs, rfl, hfacts.1⟩, fun rest _ => unaryOperator?_eq_none fun y hy => ?_⟩
  exact Option.some.inj hy ▸ hfacts.2

/-- A word is an operator only by its spelling. -/
theorem opensNoOperator_word {word : String} (hname : IsName word)
    (hword : UnaryOperator.ofText? word = none) : OpensNoOperator word.toList := by
  intro rest hrest
  have hleading := isName_leadingWord_append hname hrest
  rw [unaryOperator?_of_leadingWord hleading (isName_starts hname).ne_nil, String.ofList_toList,
    hword]

/-- Reserved words are spelled as names are. -/
theorem isName_of_mem_reservedWords {word : String} (h : word ∈ reservedWords) : IsName word := by
  have hall : ∀ word ∈ reservedWords,
      word.toList.all Text.isIdentifierStart = true ∧ word.toList ≠ [] := by
    decide
  obtain ⟨hstart, hne⟩ := hall word h
  obtain ⟨x, xs, hlist⟩ := List.exists_cons_of_ne_nil hne
  rw [hlist, List.all_eq_true] at hstart
  refine ⟨x, xs, hlist, hstart x (List.mem_cons_self ..), fun y hy => ?_⟩
  exact Text.isIdentifierPart_of_start (hstart y (List.mem_cons_of_mem _ hy))

/-- No reserved word is an operator. -/
theorem opensNoOperator_reservedWord {word : String} (h : word ∈ reservedWords) :
    OpensNoOperator word.toList := by
  have hall : ∀ word ∈ reservedWords, UnaryOperator.ofText? word = none := by decide
  exact opensNoOperator_word (isName_of_mem_reservedWords h) (hall word h)

/-- The spelling of a literal is a keyword or a numeral. -/
theorem spells_cases {raw : String} {value : LiteralValue} (h : Spells raw value) :
    raw ∈ reservedWords ∨ IsNumeral raw.toList := by
  cases h with
  | true => exact Or.inl (by decide)
  | false => exact Or.inl (by decide)
  | null => exact Or.inl (by decide)
  | number hnumeral => exact Or.inr hnumeral

/-! ## The first character -/

theorem starts_unaryOperator (operator : UnaryOperator) : Starts operator.text.toList := by
  cases operator <;> exact ⟨_, _, rfl, by decide⟩

theorem starts_unaryText (operator : UnaryOperator) (argument : List Char) :
    Starts (unaryText operator argument) :=
  (starts_unaryOperator operator).append

/-- No text begins with a blank. -/
theorem starts_text (h : e.AllFit) : Starts e.text := by
  induction e using Expr.induction with
  | h e ih =>
    have hshape := h.root.shape
    have hchild : ∀ x ∈ e.children, Starts x.text := fun x hx => ih x hx (h.child hx)
    cases e with
    | literal span raw value =>
      rcases spells_cases hshape with hword | hnumeral
      · exact isName_starts (isName_of_mem_reservedWords hword)
      · exact (opensNoOperator_number hnumeral).1
    | identifier span name => exact isName_starts hshape
    | this span => exact ⟨'t', _, rfl, rfl⟩
    | array span elements => exact ⟨'[', _, rfl, rfl⟩
    | sequence span es =>
      have hlength : 2 ≤ es.length := hshape
      rcases es with _ | ⟨first, _ | ⟨second, others⟩⟩
      · exact absurd hlength (by decide)
      · exact absurd hlength (by simp)
      · exact ((hchild first (List.mem_cons_self ..)).group _).append
    | conditional span test consequent alternate =>
      exact ((hchild test (List.mem_cons_self ..)).group _).append
    | new span callee es => exact ⟨'n', _, rfl, by decide⟩
    | call span callee es optional =>
      exact ((hchild callee (List.mem_cons_self ..)).group _).append
    | member span object property computed optional =>
      cases computed <;> exact ((hchild object (List.mem_cons_self ..)).group _).append
    | chain span expression => exact hchild expression (List.mem_cons_self ..)
    | update span operator leading argument =>
      cases leading with
      | true =>
        have hstarts : Starts operator.text.toList := by
          cases operator <;> exact ⟨_, _, rfl, by decide⟩
        exact hstarts.append
      | false => exact (hchild argument (List.mem_cons_self ..)).append
    | unary span operator leading argument => exact starts_unaryText operator _
    | binary span operator left right | logical span operator left right =>
      exact ((hchild left (List.mem_cons_self ..)).group _).append

/-! ## The first word -/

/-- What comes after the first word leaves it as it is, if it is no part of the word. -/
theorem OpensNoOperator.append {x : Char} {xs : List Char} (h : OpensNoOperator text)
    (hx : x ∈ Text.symbols) : OpensNoOperator (text ++ x :: xs) := by
  intro rest _
  rw [List.append_assoc]
  refine h _ fun y hy => ?_
  obtain rfl := Option.some.inj hy
  exact Text.isIdentifierPart_of_mem_symbols hx

/-- Before a link parentheses are no operator either. -/
theorem OpensNoOperator.link {isGrouped : Bool} {x : Char} {xs : List Char}
    (h : isGrouped = false → OpensNoOperator text) (hx : x ∈ Text.symbols) :
    OpensNoOperator (group isGrouped text ++ x :: xs) := by
  cases isGrouped with
  | true => exact opensNoOperator_group.append hx
  | false => exact (h rfl).append hx

/-- A tree whose text does not begin with the word of an operator is written with no operator at the
beginning, if it stands where an operand does. -/
theorem opensNoOperator_text (h : e.AllFit) (hword : e.opensWithOperator = false)
    (hlevel : Level.unary ≤ e.level) (hunary : e.isUnary = false) : OpensNoOperator e.text := by
  induction e using Expr.induction with
  | h e ih =>
    have hshape := h.root.shape
    have hchild : ∀ x ∈ e.children, x.opensWithOperator = false → Level.call ≤ x.level →
        OpensNoOperator x.text := fun x hx hword hcall =>
      ih x hx (h.child hx) hword (Nat.le_trans (by decide) hcall) (isUnary_of_level hcall)
    cases e with
    | literal span raw value =>
      rcases spells_cases hshape with hword | hnumeral
      · exact opensNoOperator_reservedWord hword
      · exact (opensNoOperator_number hnumeral).2
    | identifier span name =>
      have hnone := Option.not_isSome_iff_eq_none.1 (Bool.eq_false_iff.1 hword)
      exact opensNoOperator_word hshape hnone
    | this span =>
      have hthis : "this" ∈ reservedWords := by decide
      exact opensNoOperator_reservedWord hthis
    | array span elements =>
      -- The bracket is no symbol of an operator.
      intro rest _
      refine unaryOperator?_eq_none fun x hx => ?_
      obtain rfl := Option.some.inj hx
      exact ⟨Text.isIdentifierStart_of_mem_symbols (by decide), by decide⟩
    | new span callee es =>
      have hnew : "new" ∈ reservedWords := by decide
      exact (opensNoOperator_reservedWord hnew).append (by decide : ' ' ∈ Text.symbols)
    | call span callee es optional =>
      have hopens : callee.isGroupedBeforeLink = false → OpensNoOperator callee.text :=
        fun hungrouped =>
          hchild callee (List.mem_cons_self ..) hword (ungroupedBeforeLink hungrouped).2
      cases optional with
      | true => exact .link hopens (by decide : '?' ∈ Text.symbols)
      | false => exact .link hopens (by decide : '(' ∈ Text.symbols)
    | member span object property computed optional =>
      have hopens : object.isGroupedBeforeLink = false → OpensNoOperator object.text :=
        fun hungrouped =>
          hchild object (List.mem_cons_self ..) hword (ungroupedBeforeLink hungrouped).2
      have hopensName : object.isGroupedBeforeName = false → OpensNoOperator object.text :=
        fun hungrouped => hopens (Bool.or_eq_false_iff.1 hungrouped).2
      match computed, optional with
      | true, true => exact .link hopens (by decide : '?' ∈ Text.symbols)
      | true, false => exact .link hopens (by decide : '[' ∈ Text.symbols)
      | false, true => exact .link hopensName (by decide : '?' ∈ Text.symbols)
      | false, false => exact .link hopensName (by decide : '.' ∈ Text.symbols)
    | chain span expression =>
      refine hchild expression (List.mem_cons_self ..) hword ?_
      exact Nat.le_of_eq (level_of_isLink (isLink_of_hasOptionalLink hshape)).symm
    | update span operator leading argument =>
      cases leading with
      | true =>
        intro rest _
        have hupdate : updateOperator? (operator.text.toList ++ argument.text ++ rest) =
            some operator := by
          rw [List.append_assoc]
          exact updateOperator?_text operator
        exact unaryOperator?_of_updateOperator? hupdate
      | false =>
        have hopens := hchild argument (List.mem_cons_self ..) hword (level_of_isPlace hshape)
        cases operator with
        | increment => exact hopens.append (by decide : '+' ∈ Text.symbols)
        | decrement => exact hopens.append (by decide : '-' ∈ Text.symbols)
    | unary => cases hunary
    | sequence => exact absurd hlevel (by decide : ¬Level.unary ≤ Level.sequence)
    | conditional => exact absurd hlevel (by decide : ¬Level.unary ≤ Level.conditional)
    | binary span operator left right =>
      exact absurd hlevel (Nat.not_le.2 (InfixOperator.binary operator).level_lt_unary)
    | logical span operator left right =>
      exact absurd hlevel (Nat.not_le.2 (InfixOperator.logical operator).level_lt_unary)

end Source

end Estree
