import Estree.Proofs.Expr.Due
import Estree.Proofs.Grammar.Points
import Estree.Proofs.Grammar.Residue
import Estree.Proofs.Source.Reread
import Estree.Proofs.Text.Balance
import Estree.Proofs.Transfer.Groups

/-!
# What the text costs that is passed

The text behind a cursor costs what is passed of it and what is left. Blanks and operators cost
nothing, accesses cost their points, and what a parenthesis costs depends on what has been read
behind it: one before expressions, unless they are digits alone, and before arguments what is due
for their list.

> `Cursor.balance`: the cost of what is left behind a cursor. What a production passes costs the
> balance before it less the balance behind it, so the costs of productions that follow each other
> add up by themselves.
> `openToll_expressions`: what the parenthesis of a group has cost, once its expressions are read.
> `argumentsToll_le`: the same for the parenthesis before arguments.

A parenthesis has its cost from the characters that follow it, and the tree has digits alone from
what has been read there. That both agree is the one thing to be shown here. Behind a parenthesis
that costs nothing there are digits up to the one that closes (`exists_digits`); they are read as a
number that is written as digits alone (`derives_digits`), and since a text is read in one way only,
this number is all that the group has.
-/

open Estree.Expr

namespace Estree

open Text

/-! ## Texts that follow a cursor -/

namespace Cursor

variable {c c' : Cursor}

/-- What the text after the cursor costs. -/
def balance (c : Cursor) : Int :=
  Text.balance c.rest

/-- Blanks cost nothing. -/
theorem balance_skipBlanks (c : Cursor) (lineEnds : Bool) :
    (c.skipBlanks lineEnds).balance = c.balance :=
  (Grammar.skips_skipBlanks c lineEnds).balance_eq.symm

/-- Nor does what stands before the next solid character. -/
theorem balance_pastBlanks (c : Cursor) : c.pastBlanks.balance = c.balance :=
  c.balance_skipBlanks true

/-- A free character costs nothing. -/
theorem balance_skip_one {x : Char} (h : c.rest.head? = some x) (hx : IsFree x) :
    (c.skip 1).balance = c.balance := by
  rw [balance, balance, rest_eq_cons_skip h]
  exact (balance_cons hx).symm

/-- A free character behind blanks costs nothing. -/
theorem balance_pastBlanks_skip_one {x : Char} (h : c.pastBlanks.rest.head? = some x)
    (hx : IsFree x) : (c.pastBlanks.skip 1).balance = c.balance := by
  rw [balance_skip_one h hx, balance_pastBlanks]

/-- An opening parenthesis is passed. -/
theorem balance_open (h : c.pastBlanks.rest.head? = some '(') :
    c.balance = openToll (c.pastBlanks.skip 1).rest + (c.pastBlanks.skip 1).balance := by
  rw [← c.balance_pastBlanks, balance, rest_eq_cons_skip h]
  rfl

/-- An access costs two for each of its points. -/
theorem balance_access {access : Access} (h : Token.access? c.pastBlanks.rest = some access) :
    c.balance = 2 * access.points + (c.pastBlanks.skip access.text.length).balance := by
  obtain ⟨rest, hrest⟩ := Token.access?_eq_some h
  have hskip : (c.pastBlanks.skip access.text.length).rest = rest := skip_length_rest hrest
  rw [← c.balance_pastBlanks, balance, balance, hrest, hskip]
  exact Expr.balance_access access rest

/-- A piece without parentheses is passed. -/
theorem balance_passes {piece : List Char} (h : c.Passes piece c') (hpiece : ∀ x ∈ piece, x ≠ '(') :
    c.balance = Text.balance piece - joint piece c'.rest + c'.balance := by
  rw [balance, balance, h.rest_eq]
  exact balance_append hpiece

/-- A piece of free characters is passed. -/
theorem balance_skip_free {piece rest : List Char} (h : c.rest = piece ++ rest)
    (hfree : ∀ x ∈ piece, IsFree x) : (c.skip piece.length).balance = c.balance := by
  rw [balance, balance, skip_length_rest h, h]
  exact (balance_append_free hfree).symm

/-- An operator behind blanks costs nothing if its characters are free. -/
theorem balance_operator {spelling : String} {rest : List Char}
    (h : c.pastBlanks.rest = spelling.toList ++ rest) (hfree : ∀ x ∈ spelling.toList, IsFree x) :
    (c.pastBlanks.skip spelling.length).balance = c.balance := by
  rw [← c.balance_pastBlanks]
  exact balance_skip_free h hfree

/-- A word costs nothing, but for a point after it. -/
theorem balance_word {word : List Char} (h : leadingWord c.rest = word) :
    c.balance + joint word (c.skip word.length).rest = (c.skip word.length).balance := by
  obtain ⟨rest, hrest⟩ := leadingWord_isPrefixOf c.rest
  rw [h] at hrest
  have hword : ∀ x ∈ word, x ≠ '(' ∧ x ≠ '.' := by
    refine fun x hx => ⟨?_, ?_⟩
    · rintro rfl
      exact absurd (isIdentifierPart_of_mem_leadingWord (h ▸ hx)) (by decide)
    · rintro rfl
      exact absurd (isIdentifierPart_of_mem_leadingWord (h ▸ hx)) (by decide)
  have hc := balance_passes (passes_skip hrest.symm) fun x hx => (hword x hx).1
  rw [balance_eq_zero hword] at hc
  omega

end Cursor

namespace Grammar

variable {depth : Nat} {c c₁ c' : Cursor} {e : Expr} {es : List Expr}

/-- Infix operators have no parentheses and no points. -/
theorem free_infixOperator (operator : InfixOperator) :
    ∀ x ∈ operator.text.toList, IsFree x := by
  rcases operator with operator | operator <;> cases operator <;> decide

/-- Nor have unary operators. -/
theorem free_unaryOperator (operator : UnaryOperator) :
    ∀ x ∈ operator.text.toList, IsFree x := by
  cases operator <;> decide

/-- Nor have updates. -/
theorem free_updateOperator (operator : UpdateOperator) :
    ∀ x ∈ operator.text.toList, IsFree x := by
  cases operator <;> decide

/-! ## Digits in parentheses -/

/-- Digits alone are read as the number that they spell. -/
theorem derives_digits {digits rest : List Char} (hdigits : IsDigits digits)
    (hc : c.rest = digits ++ ')' :: rest) : ∃ depth e c', Derives depth .expression c (some e) c' ∧
      e.bareDigits?.isSome = true ∧ c'.pastBlanks.rest = ')' :: rest := by
  have hnumeral : IsNumeral digits :=
    ⟨digits, [], .whole hdigits, Or.inl rfl, (List.append_nil digits).symm⟩
  obtain ⟨number, hspells⟩ : ∃ number, Spells (String.ofList digits) (.number number) :=
    Spells.exists_number (by rwa [String.toList_ofList])
  have hfit : (literal nowhere (String.ofList digits) (.number number)).AllFit :=
    fits_leaf hspells rfl
  have hrereads := Source.rereads hfit (by
    intro n hn
    obtain rfl := List.mem_singleton.1 hn
    rfl)
  have hreads := (hrereads _ (Nat.le_refl _)).expression ⟨rfl, rfl, rfl⟩
    (show Level.conditional ≤ Level.primary by decide)
  have hstart : c.pastBlanks.rest = digits ++ ')' :: rest := by
    obtain ⟨x, xs, rfl⟩ := List.exists_cons_of_ne_nil hdigits.1
    have hx := isBlank_of_isDigit (hdigits.2 x (List.mem_cons_self ..))
    rw [Cursor.pastBlanks_of_cons hc hx, hc]
  obtain ⟨e, c', hderives, hsame, hrest⟩ := hreads c (')' :: rest)
    (by rw [hstart, text, String.toList_ofList]) (.closer (Or.inl rfl))
  refine ⟨_, e, c', hderives, ?_, hrest⟩
  have hall : digits.all Char.isDigit = true := List.all_eq_true.2 hdigits.2
  cases e with
  | literal span raw value =>
    cases hsame
    rw [bareDigits?, String.toList_ofList, if_pos hall]
    rfl
  | _ => cases hsame

/-- What is in parentheses of which the opening one costs nothing. -/
theorem exists_digits {rest : List Char} (hnext : nextSolid? rest ≠ some ')')
    (h : (rest.dropWhile Char.isDigit).head? = some ')') :
    ∃ digits rest', IsDigits digits ∧ rest = digits ++ ')' :: rest' := by
  obtain ⟨rest', hrest'⟩ := List.head?_eq_some_iff.1 h
  have hsplit : rest.takeWhile Char.isDigit ++ ')' :: rest' = rest := by
    rw [← hrest']
    exact List.takeWhile_append_dropWhile
  refine ⟨rest.takeWhile Char.isDigit, rest', ⟨fun hnil => hnext ?_, ?_⟩, hsplit.symm⟩
  · rw [hnil, List.nil_append] at hsplit
    rw [← hsplit]
    rfl
  · exact fun x hx => List.all_eq_true.1 List.all_takeWhile x hx

/-- Where expressions are expected, the parenthesis does not close at once. -/
theorem nextSolid?_ne_of_isIdleComma {opened : Bool} {rest : List Char}
    (h : isIdleComma opened rest = false) : nextSolid? rest ≠ some ')' := by
  intro hnext
  rw [isIdleComma_of_nextSolid? hnext] at h
  cases h

/-- A parenthesis before expressions costs one, or they are digits alone. -/
theorem openToll_expressions {isFirst : Bool} (h : Derives depth (.expressions isFirst) c es c')
    (hne : es ≠ []) : openToll c.rest = 1 ∨
      openToll c.rest = 0 ∧ ∃ e, es = [e] ∧ e.bareDigits?.isSome = true := by
  have hnext := nextSolid?_ne_of_isIdleComma (h.isIdleComma_expressions hne false)
  by_cases hdigits : (c.rest.dropWhile Char.isDigit).head? = some ')'
  · obtain ⟨digits, rest, hall, hrest⟩ := exists_digits hnext hdigits
    obtain ⟨_, e, c₁, he, hbare, hc₁⟩ := derives_digits hall hrest
    have hone : Derives _ (.expressions isFirst) c [e] c₁.pastBlanks :=
      .lastExpression he nofun (by rw [hc₁]; exact nofun)
    exact Or.inr ⟨openToll_digits hnext hdigits, e, (h.unique hone).1, hbare⟩
  · exact Or.inl (openToll_eq_one hnext hdigits)

/-- A parenthesis before arguments costs what is due. -/
theorem argumentsToll_le (h : Derives depth .argumentList c es c')
    (hclose : c'.rest.head? = some ')') : argumentsToll es ≤ openToll c.rest := by
  have hidle : isIdleComma false c.rest = es.isEmpty := (h.accounts hclose).1
  cases es with
  | nil => exact le_openToll c.rest
  | cons first others =>
    have hnext := nextSolid?_ne_of_isIdleComma hidle
    by_cases hdigits : (c.rest.dropWhile Char.isDigit).head? = some ')'
    · obtain ⟨digits, rest, hall, hrest⟩ := exists_digits hnext hdigits
      obtain ⟨_, e, c₁, he, hbare, hc₁⟩ := derives_digits hall hrest
      have hone : Derives _ .argumentList c [e] c₁.pastBlanks :=
        .lastArgument he (by rw [hc₁]; exact nofun)
      refine Int.le_of_eq ?_
      rw [(h.unique hone).1, argumentsToll, if_pos hbare, openToll_digits hnext hdigits]
    · rw [openToll_eq_one hnext hdigits]
      unfold argumentsToll
      split
      next => decide
      next =>
        split
        next => decide
        next => decide
      next => decide

end Grammar

end Estree
