import Estree.Proofs.Number.Numeral
import Estree.Source

/-!
# What a text begins with

The grammar decides by the first characters of a text: a parenthesis, an update operator, a word, a
number, a bracket, an operator, an access. Here it is shown that these exclude each other, and that
each of them is found where it stands.

> the first section reads words and numbers by their first character;
> the second one says which characters operators and accesses begin with, so that none of them is
> found where another character stands (`updateOperator?_eq_none`, `infixOperator?_eq_none`, …);
> the third one finds them where they have been written (`updateOperator?_text`,
> `infixOperator?_text`, …).

What is written before an operator ends with a blank or a letter, and what is behind it begins in a
known way. That is what the third section asks for: a unary operator is found if its operand does
not begin with the same sign, and an infix operator if a space stands behind it.
-/

namespace Estree

/-! ## Words and numbers -/

namespace Text

variable {x : Char} {text rest : List Char}

/-- A word is read as a whole if no character after it goes on with it. -/
theorem leadingWord_append {xs : List Char} (hx : isIdentifierStart x = true)
    (hxs : ∀ y ∈ xs, isIdentifierPart y = true)
    (hrest : ∀ y ∈ rest.head?, isIdentifierPart y = false) :
    leadingWord (x :: xs ++ rest) = x :: xs := by
  rw [List.cons_append, leadingWord, if_pos hx, takeWhile_append hxs hrest]

/-- A number starts with a digit or a point. -/
theorem head?_of_numberStart (h : Pattern.numberStart.isAtStart text = true) :
    ∃ x, text.head? = some x ∧ (x.isDigit = true ∨ x = '.') := by
  rcases Pattern.numberStart_isAtStart.1 h with ⟨d, rest, rfl, hd⟩ | ⟨d, rest, rfl, -⟩
  · exact ⟨d, rfl, Or.inl hd⟩
  · exact ⟨'.', rfl, Or.inr rfl⟩

/-- A number does not begin with a parenthesis. -/
theorem head?_ne_open_of_numberStart (h : Pattern.numberStart.isAtStart text = true) :
    text.head? ≠ some '(' := by
  obtain ⟨x, hx, hkind⟩ := head?_of_numberStart h
  intro hopen
  obtain rfl := Option.some.inj (hx.symm.trans hopen)
  rcases hkind with hdigit | hpoint
  · exact absurd hdigit (by decide)
  · exact absurd hpoint (by decide)

/-- What it starts with begins no word, and is not among characters that are neither. -/
theorem exists_head?_of_numberStart (h : Pattern.numberStart.isAtStart text = true)
    (others : List Char) (hothers : others.any (fun y => y.isDigit || y == '.') = false) :
    ∃ x, text.head? = some x ∧ isIdentifierStart x = false ∧ x ∉ others := by
  obtain ⟨x, hx, hkind⟩ := head?_of_numberStart h
  refine ⟨x, hx, ?_, fun hmem => ?_⟩
  · rcases hkind with hdigit | rfl
    · exact isIdentifierStart_of_isDigit hdigit
    · exact isIdentifierStart_of_mem_symbols (by decide)
  · have hnone := List.any_eq_false.1 hothers x hmem
    rcases hkind with hdigit | rfl
    · simp [hdigit] at hnone
    · simp at hnone

/-- A number begins with a digit or a point. -/
theorem numberStart_eq_false (h : ∀ x ∈ text.head?, x.isDigit = false ∧ x ≠ '.') :
    Pattern.numberStart.isAtStart text = false := by
  refine Bool.eq_false_iff.2 fun hstart => ?_
  obtain ⟨x, hx, hkind⟩ := head?_of_numberStart hstart
  obtain ⟨hdigit, hpoint⟩ := h x hx
  rcases hkind with hd | hp
  · rw [hd] at hdigit
    cases hdigit
  · exact hpoint hp

end Text

/-! ## What operators begin with -/

namespace Token

variable {text : List Char}

/-- Only `+` and `-` begin update operators. -/
theorem updateOperator?_eq_none (h : ∀ x ∈ text.head?, x ≠ '+' ∧ x ≠ '-') :
    updateOperator? text = none := by
  have hpiece : Pattern.updateOperator.piece text = [] := by
    cases text with
    | nil => rfl
    | cons x xs =>
      obtain ⟨hplus, hminus⟩ := h x rfl
      simp [Pattern.piece, Pattern.updateOperator, Pattern.firstOf, Pattern.text, hplus.symm,
        hminus.symm]
  rw [updateOperator?, hpiece]
  rfl

/-- An update begins with a sign. -/
theorem head?_of_updateOperator? {operator : UpdateOperator}
    (h : updateOperator? text = some operator) : text.head? = some '+' ∨ text.head? = some '-' := by
  refine Decidable.byContradiction fun hhead => ?_
  have hnone : updateOperator? text = none := updateOperator?_eq_none fun x hx =>
    ⟨fun hplus => hhead (Or.inl (hplus ▸ hx)), fun hminus => hhead (Or.inr (hminus ▸ hx))⟩
  rw [hnone] at h
  cases h

/-- An update does not begin with a parenthesis. -/
theorem head?_ne_open_of_updateOperator? {operator : UpdateOperator}
    (h : updateOperator? text = some operator) : text.head? ≠ some '(' := by
  intro hopen
  rcases head?_of_updateOperator? h with hhead | hhead
  · cases hhead.symm.trans hopen
  · cases hhead.symm.trans hopen

/-- Where a word stands, there is no update operator. -/
theorem updateOperator?_of_leadingWord (h : Text.leadingWord text ≠ []) :
    updateOperator? text = none := by
  obtain ⟨x, hx, hstart⟩ := Text.leadingWord_ne_nil_iff.1 h
  refine updateOperator?_eq_none fun y hy => ?_
  obtain rfl := Option.some.inj (hx.symm.trans hy)
  refine ⟨?_, ?_⟩
  · rintro rfl
    exact Text.not_mem_symbols hstart (by decide)
  · rintro rfl
    exact Text.not_mem_symbols hstart (by decide)

/-- Update operators are looked for by their two spellings. -/
theorem isAtStart_updateOperator :
    Pattern.updateOperator.isAtStart text = (updateOperator? text).isSome := by
  have hspelling : Pattern.updateOperator.piece text = [] ∨
      Pattern.updateOperator.piece text = "++".toList ∨
      Pattern.updateOperator.piece text = "--".toList := by
    rcases text with _ | ⟨x, _ | ⟨y, ys⟩⟩
    · exact Or.inl rfl
    · refine Or.inl ?_
      simp [Pattern.piece, Pattern.updateOperator, Pattern.firstOf, Pattern.text]
    · by_cases hplus : x = '+' ∧ y = '+'
      · obtain ⟨rfl, rfl⟩ := hplus
        exact Or.inr (Or.inl rfl)
      · by_cases hminus : x = '-' ∧ y = '-'
        · obtain ⟨rfl, rfl⟩ := hminus
          exact Or.inr (Or.inr rfl)
        · refine Or.inl ?_
          have hp : ¬('+' = x ∧ '+' = y) := fun h => hplus ⟨h.1.symm, h.2.symm⟩
          have hm : ¬('-' = x ∧ '-' = y) := fun h => hminus ⟨h.1.symm, h.2.symm⟩
          simp [Pattern.piece, Pattern.updateOperator, Pattern.firstOf, Pattern.text, hp,
            hm]
  rw [Pattern.isAtStart, updateOperator?]
  rcases hspelling with h | h | h
  · rw [h]; rfl
  · rw [h]; rfl
  · rw [h]; rfl

/-- A word is an operator by its spelling alone. -/
theorem unaryOperator?_of_leadingWord {word : List Char} (h : Text.leadingWord text = word)
    (hne : word ≠ []) : unaryOperator? text = UnaryOperator.ofText? (String.ofList word) := by
  have hupdate : Pattern.updateOperator.isAtStart text = false := by
    rw [isAtStart_updateOperator, updateOperator?_of_leadingWord (h ▸ hne)]
    rfl
  have hword : wordOr .unarySymbol text = word := by
    rw [wordOr, h]
    cases word with
    | nil => exact absurd rfl hne
    | cons x xs => rfl
  rw [unaryOperator?, if_neg (Bool.eq_false_iff.1 hupdate), hword]

/-- Only `?`, `.` and `[` begin accesses. -/
theorem access?_eq_none (h : ∀ x ∈ text.head?, x ≠ '?' ∧ x ≠ '.' ∧ x ≠ '[') :
    access? text = none := by
  have hpiece : Pattern.access.piece text = [] := by
    cases text with
    | nil => rfl
    | cons x xs =>
      obtain ⟨hquestion, hpoint, hbracket⟩ := h x rfl
      simp [Pattern.piece, Pattern.access, Pattern.firstOf, Pattern.text, hquestion.symm,
        hpoint.symm, hbracket.symm]
  rw [access?, hpiece]
  split <;> rfl

/-- An access that is found stands at the start of the text. -/
theorem access?_eq_some {access : Access} (h : access? text = some access) :
    ∃ rest, text = access.text.toList ++ rest := by
  rw [access?] at h
  split at h
  next => cases h
  next =>
    have hspelling : access.text = String.ofList (Pattern.access.piece text) := by
      simpa using List.find?_some h
    refine ⟨text.drop (Pattern.access.length text), ?_⟩
    rw [hspelling, String.toList_ofList, Pattern.piece_append]

/-- The characters that begin infix operators other than words. -/
def infixSymbols : List Char := ['>', '=', '!', '*', '<', '&', '|', '?', '+', '-', '/', '%', '^']

/-- A spelling is not found before another first character. -/
theorem length_text_eq_zero {s : String} {x : Char} {xs : List Char}
    (h : s.toList.head? ≠ some x) (hs : s.toList ≠ []) : (Pattern.text s).length (x :: xs) = 0 := by
  rw [Pattern.text]
  dsimp only
  cases hlist : s.toList with
  | nil => exact absurd hlist hs
  | cons y ys =>
    have hne : ¬y = x := fun heq => h (by rw [hlist, heq]; rfl)
    rw [if_neg]
    simp [hne]

/-- Of several patterns none is found if each of them is not. -/
theorem length_firstOf_eq_zero {patterns : List Pattern}
    (h : ∀ pattern ∈ patterns, pattern.length text = 0) :
    (Pattern.firstOf patterns).length text = 0 := by
  have hfind : (patterns.map (·.length text)).find? (· ≠ 0) = none := by
    rw [List.find?_eq_none]
    intro n hn
    obtain ⟨pattern, hpattern, rfl⟩ := List.mem_map.1 hn
    simp [h pattern hpattern]
  rw [Pattern.firstOf]
  dsimp only
  rw [hfind]
  rfl

/-- Nothing but these characters and words begins an infix operator. -/
theorem infixOperator?_eq_none (h : ∀ x ∈ text.head?, Text.isIdentifierStart x = false ∧
    x ∉ infixSymbols) : infixOperator? text = none := by
  have hspelling : wordOr .infixSymbol text = [] := by
    cases text with
    | nil => rfl
    | cons x xs =>
      have hsymbol := (h x rfl).2
      have hlength : Pattern.infixSymbol.length (x :: xs) = 0 := by
        refine length_firstOf_eq_zero fun pattern hpattern => ?_
        have hne : ∀ y ∈ infixSymbols, some y ≠ some x := fun y hy heq =>
          hsymbol (Option.some.inj heq ▸ hy)
        simp only [List.mem_cons, List.not_mem_nil, or_false] at hpattern
        rcases hpattern with rfl | rfl | rfl | rfl | rfl | rfl | rfl | rfl | rfl | rfl | rfl | rfl |
          rfl | rfl
        -- All but the last pattern are single texts; the last one is a class of characters.
        any_goals exact length_text_eq_zero (hne _ (by decide)) (by decide)
        have hnone : "<>+-*/%&|^".toList.contains x = false := by
          refine Bool.eq_false_iff.2 fun hx => hsymbol ?_
          have hsubset : "<>+-*/%&|^".toList.all infixSymbols.contains = true := by decide
          have hmem := List.all_eq_true.1 hsubset x (List.contains_iff_mem.1 hx)
          exact List.contains_iff_mem.1 hmem
        simp only [Pattern.one, hnone]
        rfl
      rw [wordOr, Text.leadingWord_eq_nil fun y hy => (h y hy).1]
      show (x :: xs).take _ = []
      rw [hlength]
      rfl
  rw [infixOperator?, hspelling]
  rfl

/-! ## Operators where they have been written -/

variable {rest : List Char}

/-- An update is found where it is written. -/
theorem updateOperator?_text (operator : UpdateOperator) :
    updateOperator? (operator.text.toList ++ rest) = some operator := by
  cases operator <;> rfl

/-- An access is found where it has been written; a name after `?.` has to be one. -/
theorem access?_text {access : Access}
    (h : access = ⟨true, false⟩ → ∀ x ∈ rest.head?, x ≠ '[' ∧ x.isDigit = false) :
    access? (access.text.toList ++ rest) = some access := by
  rcases access with ⟨_ | _, _ | _⟩
  · rfl
  · rfl
  · -- `?.5` is a conditional, and `?.[` is the longer access.
    cases rest with
    | nil => rfl
    | cons x xs =>
      obtain ⟨hbracket, hdigit⟩ := h rfl x rfl
      have hfraction :
          Pattern.questionBeforeFraction.isAtStart ('?' :: '.' :: x :: xs) = false := by
        simp [Pattern.isAtStart, Pattern.piece, Pattern.questionBeforeFraction, Pattern.followedBy,
          Pattern.text, Pattern.one, hdigit]
      have hpiece : Pattern.access.piece ('?' :: '.' :: x :: xs) = "?.".toList := by
        simp [Pattern.piece, Pattern.access, Pattern.firstOf, Pattern.text, hbracket.symm]
      show access? ('?' :: '.' :: x :: xs) = _
      rw [access?, if_neg (Bool.eq_false_iff.1 hfraction), hpiece]
      rfl
  · rfl

/-- The characters that begin unary operators other than words. -/
def unarySymbols : List Char := ['!', '~', '+', '-']

/-- Only these characters and words are unary operators. -/
theorem unaryOperator?_eq_none (h : ∀ x ∈ text.head?, Text.isIdentifierStart x = false ∧
    x ∉ unarySymbols) : unaryOperator? text = none := by
  have hspelling : wordOr .unarySymbol text = [] := by
    have hpiece : Pattern.unarySymbol.piece text = [] := by
      cases text with
      | nil => rfl
      | cons x xs =>
        have hsymbol := (h x rfl).2
        simp only [unarySymbols, List.mem_cons, List.not_mem_nil, or_false, not_or] at hsymbol
        simp [Pattern.piece, Pattern.unarySymbol, Pattern.one, hsymbol]
    rw [wordOr, Text.leadingWord_eq_nil fun x hx => (h x hx).1, hpiece]
  rw [unaryOperator?, hspelling]
  split <;> rfl

/-- No number begins with an operator. -/
theorem unaryOperator?_of_numberStart (h : Pattern.numberStart.isAtStart text = true) :
    unaryOperator? text = none := by
  obtain ⟨x, hx, hword, hsymbol⟩ := Text.exists_head?_of_numberStart h unarySymbols rfl
  refine unaryOperator?_eq_none fun y hy => ?_
  obtain rfl := Option.some.inj (hx.symm.trans hy)
  exact ⟨hword, hsymbol⟩

/-- Where an update stands, no unary operator does. -/
theorem unaryOperator?_of_updateOperator? {operator : UpdateOperator}
    (h : updateOperator? text = some operator) : unaryOperator? text = none := by
  have hstart : Pattern.updateOperator.isAtStart text = true := by
    rw [isAtStart_updateOperator, h]
    rfl
  rw [unaryOperator?, if_pos hstart]

/-- A unary operator is found where it has been written, with a space after it or without one where
none is needed. -/
theorem unaryOperator?_text {operator : UnaryOperator} {argument : List Char}
    (hargument : argument ≠ []) :
    unaryOperator? (Source.unaryText operator argument ++ rest) = some operator := by
  obtain ⟨x, xs, rfl⟩ := List.exists_cons_of_ne_nil hargument
  cases operator with
  | minus =>
    -- Before another `-` there is a space, otherwise the two would be one operator.
    by_cases hx : x = '-'
    · subst hx
      rfl
    · have hspace : Source.needsSpace .minus (x :: xs) = false := by
        simp [Source.needsSpace, UnaryOperator.isWord, hx]
      have hupdate : Pattern.updateOperator.isAtStart ('-' :: x :: (xs ++ rest)) = false := by
        simp [Pattern.isAtStart, Pattern.piece, Pattern.updateOperator, Pattern.firstOf,
          Pattern.text, Ne.symm hx]
      rw [Source.unaryText, hspace, if_neg Bool.false_ne_true]
      show unaryOperator? ('-' :: x :: (xs ++ rest)) = _
      rw [unaryOperator?, if_neg (Bool.eq_false_iff.1 hupdate)]
      rfl
  | plus =>
    by_cases hx : x = '+'
    · subst hx
      rfl
    · have hspace : Source.needsSpace .plus (x :: xs) = false := by
        simp [Source.needsSpace, UnaryOperator.isWord, hx]
      have hupdate : Pattern.updateOperator.isAtStart ('+' :: x :: (xs ++ rest)) = false := by
        simp [Pattern.isAtStart, Pattern.piece, Pattern.updateOperator, Pattern.firstOf,
          Pattern.text, Ne.symm hx]
      rw [Source.unaryText, hspace, if_neg Bool.false_ne_true]
      show unaryOperator? ('+' :: x :: (xs ++ rest)) = _
      rw [unaryOperator?, if_neg (Bool.eq_false_iff.1 hupdate)]
      rfl
  | not => rfl
  | bitNot => rfl
  | typeof => rfl
  | void => rfl
  | delete => rfl

/-- The spelling of an infix operator ends at the space behind it. -/
theorem wordOr_infixSymbol (operator : InfixOperator) :
    wordOr .infixSymbol (operator.text.toList ++ ' ' :: rest) = operator.text.toList := by
  rcases operator with operator | operator <;> cases operator <;> rfl

/-- An infix operator is found where it has been written with a space after it. -/
theorem infixOperator?_text (operator : InfixOperator) :
    infixOperator? (operator.text.toList ++ ' ' :: rest) = some operator := by
  have hnext : ((operator.text.toList ++ ' ' :: rest).drop operator.text.toList.length).head? =
      some ' ' := by
    rw [List.drop_left]
    rfl
  rw [infixOperator?, wordOr_infixSymbol]
  dsimp only
  rw [hnext, String.ofList_toList, InfixOperator.ofText?_text, Option.filter_some, if_pos (by simp)]

end Token

end Estree
