import Estree.Proofs.Grammar.Lookahead

/-!
# Texts beside one another

What stands right after an operator or an operand decides how far it is read. If another text comes
to stand there, it is read in the same way in two cases: behind an operator, if the new text begins
with the same character or with a parenthesis (`Text.Beside`), and behind an operand, if nothing
goes on with it there that did not go on before (`Text.Follows`).

Both cases come up when a part of a text is replaced or cut off. What is behind the part is then
another text, and what is before it must not notice.

> `Beside old new`: for what is behind an operator or a word. These take a longest spelling, and a
> spelling ends before every delimiter, so it is enough to know the first character.
> `Follows takesComma old new`: for what is behind an operand. Here an operator may follow behind
> blanks, so the first character does not decide. The fields say one by one what may not come up
> that was not there before: a number, an access, an infix operator, an update on the same line, or
> any other first character that does not close.

For each way in which a text may follow there is a lemma that gives `Follows`: the same operator or
the same access with another text beside it, one of the characters that end everything, or the end
of the text (`follows_infixOperator`, `follows_access`, `follows_closer`, `follows_nil`). Behind
blanks the same holds as in front of them (`Follows.blanks`).

A pattern need not be opened for any of this. `Pattern.EndsBefore` says that a pattern takes no more
of a text for some character, and it is shown once for each way of putting patterns together.
-/

namespace Estree

/-! ## Characters that end a word or a symbol -/

namespace Text

variable {p : Char → Bool} {x y : Char} {xs ys rest word old new : List Char}

/-- A class takes no more of a text for a character that is no member. -/
theorem takeWhile_append_cons (hx : p x = false) :
    (ys ++ x :: rest).takeWhile p = ys.takeWhile p := by
  induction ys with
  | nil => simp [hx]
  | cons y ys ih =>
    by_cases hy : p y = true
    · rw [List.cons_append, List.takeWhile_cons_of_pos hy, List.takeWhile_cons_of_pos hy, ih]
    · rw [List.cons_append, List.takeWhile_cons_of_neg hy, List.takeWhile_cons_of_neg hy]

/-- A word is as long as it can be. -/
theorem leadingWord_eq_iff : leadingWord (y :: ys ++ rest) = y :: ys ↔
    isIdentifierStart y = true ∧ (∀ z ∈ ys, isIdentifierPart z = true) ∧
      ∀ z ∈ rest.head?, isIdentifierPart z = false := by
  constructor
  · intro h
    rw [List.cons_append, leadingWord] at h
    split at h
    next hy =>
      have htake := (List.cons.inj h).2
      have hall : ∀ z ∈ ys, isIdentifierPart z = true := fun z hz =>
        List.all_eq_true.1 List.all_takeWhile z (htake ▸ hz)
      refine ⟨hy, hall, fun z hz => ?_⟩
      obtain ⟨zs, rfl⟩ := List.head?_eq_some_iff.1 hz
      refine Bool.eq_false_iff.2 fun hpart => ?_
      rw [List.takeWhile_append_of_pos hall, List.takeWhile_cons_of_pos hpart] at htake
      have hlength := congrArg List.length htake
      simp at hlength
    next => cases h
  · rintro ⟨hy, hys, hrest⟩
    exact leadingWord_append hy hys hrest

/-- What may come to stand behind something else than before: a group, or the end of what is in
brackets or between commas. -/
def delimiters : List Char := ['(', ')', ']', ',']

/-- Text that comes to stand behind an operator in place of another one: it begins as that one did,
or with a delimiter. -/
def Beside (old new : List Char) : Prop :=
  ∀ x ∈ new.head?, x ∈ old.head? ∨ x ∈ delimiters

/-- What holds of delimiters and of the first character holds of the new first character. -/
theorem Beside.forall_head? {P : Char → Prop} (h : Beside old new) (hold : ∀ x ∈ old.head?, P x)
    (hdelimiters : ∀ x ∈ delimiters, P x) : ∀ x ∈ new.head?, P x :=
  fun x hx => (h x hx).elim (hold x) (hdelimiters x)

/-- A word ends before a text that begins as the one behind it did. -/
theorem leadingWord_beside (h : leadingWord (word ++ old) = word) (hne : word ≠ [])
    (hbeside : Beside old new) : leadingWord (word ++ new) = word := by
  obtain ⟨y, ys, rfl⟩ := List.exists_cons_of_ne_nil hne
  obtain ⟨hy, hys, hold⟩ := leadingWord_eq_iff.1 h
  exact leadingWord_eq_iff.2 ⟨hy, hys, hbeside.forall_head? hold (by decide)⟩

end Text

open Text

namespace Pattern

/-- Whether the pattern takes no more of a text for this character and what comes after it. -/
def EndsBefore (pattern : Pattern) (x : Char) : Prop :=
  ∀ y ys rest, pattern.length (y :: ys ++ x :: rest) = pattern.length (y :: ys)

variable {pattern : Pattern} {x : Char}

/-- One character is decided by itself. -/
theorem endsBefore_one (p : Char → Bool) : (one p).EndsBefore x :=
  fun _ _ _ => rfl

/-- A spelling goes on with none but its own characters. -/
theorem isPrefixOf_append_cons {spelling text rest : List Char} (hx : x ∉ spelling) :
    spelling.isPrefixOf (text ++ x :: rest) = spelling.isPrefixOf text := by
  induction spelling generalizing text with
  | nil => rw [List.isPrefixOf_nil_left, List.isPrefixOf_nil_left]
  | cons z zs ih =>
    rw [List.mem_cons, not_or] at hx
    obtain ⟨hne, hzs⟩ := hx
    cases text with
    | nil => simp [List.isPrefixOf, Ne.symm hne]
    | cons y ys => rw [List.cons_append, List.isPrefixOf, List.isPrefixOf, ih hzs]

/-- A spelling is decided before a character that it does not go on with. -/
theorem endsBefore_text {s : String} (hx : x ∉ s.toList.tail) : (Pattern.text s).EndsBefore x := by
  intro y ys rest
  have hleading : s.toList.isPrefixOf (y :: ys ++ x :: rest) = s.toList.isPrefixOf (y :: ys) := by
    cases hs : s.toList with
    | nil => rw [List.isPrefixOf_nil_left, List.isPrefixOf_nil_left]
    | cons z zs =>
      have hzs : x ∉ zs := by rwa [hs] at hx
      rw [List.cons_append, List.isPrefixOf, List.isPrefixOf, isPrefixOf_append_cons hzs]
  show (if _ then _ else _) = if _ then _ else _
  rw [hleading]

/-- So is the first of several patterns if all of them are. -/
theorem endsBefore_firstOf {patterns : List Pattern}
    (h : ∀ pattern ∈ patterns, pattern.EndsBefore x) : (firstOf patterns).EndsBefore x := by
  intro y ys rest
  have hmap : patterns.map (·.length (y :: ys ++ x :: rest)) = patterns.map (·.length (y :: ys)) :=
    List.map_congr_left fun pattern hpattern => h pattern hpattern y ys rest
  show (((patterns.map (·.length (y :: ys ++ x :: rest))).find? _).getD 0) = _
  rw [hmap]
  rfl

/-- The characters that infix operators go on with. -/
def infixTails : List Char := ['>', '=', '*', '<', '&', '|', '?']

/-- Infix symbols end before all but a few characters. -/
theorem endsBefore_infixSymbol (hx : x ∉ infixTails) : infixSymbol.EndsBefore x := by
  have hsub : ∀ {s : String}, s.toList.tail ⊆ infixTails → (Pattern.text s).EndsBefore x :=
    fun hs => endsBefore_text fun hmem => hx (hs hmem)
  refine endsBefore_firstOf ?_
  simp only [List.forall_mem_cons, List.not_mem_nil, false_implies, implies_true, and_true]
  refine ⟨?_, ?_, ?_, ?_, ?_, ?_, ?_, ?_, ?_, ?_, ?_, ?_, ?_, endsBefore_one _⟩
  all_goals exact hsub (by decide)

/-- A pattern takes no more than the text. -/
theorem IsSolid.length_le_length (h : pattern.IsSolid) (text : List Char) :
    pattern.length text ≤ text.length :=
  Nat.le_trans (h.length_le text) (List.takeWhile_prefix _).length_le

/-- The pattern takes the same piece, whatever comes after the character. -/
theorem EndsBefore.piece_eq (h : pattern.EndsBefore x) (hsolid : pattern.IsSolid) (y : Char)
    (ys rest : List Char) : pattern.piece (y :: ys ++ x :: rest) = pattern.piece (y :: ys) := by
  rw [piece, piece, h y ys rest, List.take_append_of_le_length (hsolid.length_le_length _)]

end Pattern

namespace Token

variable {x y : Char} {ys text old new rest : List Char}

/-! ## Operators behind which another text comes to stand -/

/-- A word or symbol is found before a character that ends both. -/
theorem wordOr_append_cons {symbol : Pattern} (hsolid : symbol.IsSolid)
    (hends : symbol.EndsBefore x)
    (hword : isIdentifierStart y = true → isIdentifierPart x = false) :
    wordOr symbol (y :: ys ++ x :: rest) = wordOr symbol (y :: ys) := by
  have hleading : leadingWord (y :: ys ++ x :: rest) = leadingWord (y :: ys) := by
    rw [List.cons_append, leadingWord, leadingWord]
    by_cases hy : isIdentifierStart y = true
    · rw [if_pos hy, if_pos hy, takeWhile_append_cons (hword hy)]
    · rw [if_neg hy, if_neg hy]
  rw [wordOr, wordOr, hleading, hends.piece_eq hsolid]

/-- The word or symbol stands at the start of the text. -/
theorem wordOr_append (symbol : Pattern) (text : List Char) :
    ∃ rest, text = wordOr symbol text ++ rest := by
  rw [wordOr]
  split
  next => exact ⟨_, (symbol.piece_append text).symm⟩
  next =>
    obtain ⟨rest, hrest⟩ := leadingWord_isPrefixOf text
    exact ⟨rest, hrest.symm⟩

/-- A word is an operator only as a whole. -/
theorem isIdentifierPart_of_wordOr {symbol : Pattern}
    (h : wordOr symbol (y :: ys ++ rest) = y :: ys) (hy : isIdentifierStart y = true) :
    ∀ x ∈ rest.head?, isIdentifierPart x = false := by
  have hne : leadingWord (y :: ys ++ rest) ≠ [] :=
    leadingWord_ne_nil_iff.2 ⟨y, rfl, hy⟩
  rw [wordOr] at h
  split at h
  next hnil => exact absurd hnil hne
  next => exact (leadingWord_eq_iff.1 h).2.2

/-- What is found of an infix operator is its spelling. -/
theorem wordOr_of_infixOperator? {operator : InfixOperator}
    (h : infixOperator? text = some operator) :
    wordOr .infixSymbol text = operator.text.toList := by
  obtain ⟨h, -⟩ := Option.filter_eq_some_iff.1 h
  rw [InfixOperator.ofText?, Option.or_eq_some_iff] at h
  have hspelling : operator.text = String.ofList (wordOr .infixSymbol text) := by
    rcases h with h | ⟨-, h⟩
    · obtain ⟨logical, hlogical, rfl⟩ := Option.map_eq_some_iff.1 h
      show logical.text = _
      simpa using List.find?_some hlogical
    · obtain ⟨binary, hbinary, rfl⟩ := Option.map_eq_some_iff.1 h
      show binary.text = _
      simpa using List.find?_some hbinary
  rw [hspelling, String.toList_ofList]

/-- An infix operator stands at the start of the text. -/
theorem infixOperator?_eq_some {operator : InfixOperator}
    (h : infixOperator? text = some operator) : ∃ rest, text = operator.text.toList ++ rest := by
  rw [← wordOr_of_infixOperator? h]
  exact wordOr_append _ _

/-- The spelling of an infix operator is not empty. -/
theorem exists_cons_of_infixOperator (operator : InfixOperator) :
    ∃ y ys, operator.text.toList = y :: ys := by
  rcases operator with operator | operator <;> cases operator <;> exact ⟨_, _, rfl⟩

/-- An infix operator is found before a character that goes on with none. -/
theorem infixOperator?_text_cons {operator : InfixOperator} (htail : x ∉ Pattern.infixTails)
    (hword : ∀ y ∈ operator.text.toList.head?, isIdentifierStart y = true →
      isIdentifierPart x = false)
    (hplus : operator = .binary .add → x ≠ '+') (hminus : operator = .binary .sub → x ≠ '-') :
    infixOperator? (operator.text.toList ++ x :: rest) = some operator := by
  have hspelling : wordOr .infixSymbol (operator.text.toList ++ x :: rest) =
      operator.text.toList := by
    have halone : wordOr .infixSymbol operator.text.toList = operator.text.toList := by
      rcases operator with operator | operator <;> cases operator <;> rfl
    obtain ⟨y, ys, htext⟩ := exists_cons_of_infixOperator operator
    rw [htext] at hword halone ⊢
    rw [wordOr_append_cons Pattern.isSolid_infixSymbol (Pattern.endsBefore_infixSymbol htail)
      (hword y rfl), halone]
  have hassign : x ≠ '=' := by
    rintro rfl
    exact htail (by decide)
  rw [infixOperator?, hspelling]
  dsimp only
  rw [List.drop_left, String.ofList_toList, InfixOperator.ofText?_text, Option.filter_some, if_pos]
  simp only [List.head?_cons, Option.some_beq_some, beq_eq_false_iff_ne.2 hassign, Bool.false_and,
    Bool.not_false, Bool.true_and, Bool.not_eq_true', Bool.or_eq_false_iff, Bool.and_eq_false_iff,
    beq_eq_false_iff_ne]
  exact ⟨Decidable.not_or_of_imp hplus, Decidable.not_or_of_imp hminus⟩

/-- Where nothing is found before a sign that comes twice, none comes twice. -/
theorem ne_of_beside {α : Type} {find : List Char → Option α} {sign : Char} {found : α}
    (hnone : ∀ zs, find (sign :: sign :: zs) = none) (hsign : ∀ x ∈ delimiters, sign ≠ x)
    (h : find (sign :: old) = some found) (hbeside : Beside old new) :
    ∀ x ∈ new.head?, sign ≠ x := by
  refine hbeside.forall_head? (fun x hx => ?_) hsign
  rintro rfl
  obtain ⟨zs, rfl⟩ := List.head?_eq_some_iff.1 hx
  rw [hnone] at h
  cases h

/-- Two signs are an update, and no infix operator. -/
theorem infixOperator?_plus_plus (zs : List Char) : infixOperator? ('+' :: '+' :: zs) = none := by
  have hspelling : wordOr .infixSymbol ('+' :: '+' :: zs) =
      (InfixOperator.binary .add).text.toList := rfl
  rw [infixOperator?, hspelling, String.ofList_toList, InfixOperator.ofText?_text]
  rfl

/-- So it is with the other sign. -/
theorem infixOperator?_minus_minus (zs : List Char) :
    infixOperator? ('-' :: '-' :: zs) = none := by
  have hspelling : wordOr .infixSymbol ('-' :: '-' :: zs) =
      (InfixOperator.binary .sub).text.toList := rfl
  rw [infixOperator?, hspelling, String.ofList_toList, InfixOperator.ofText?_text]
  rfl

/-- An infix operator is found before another text that does not go on with it. -/
theorem infixOperator?_beside {operator : InfixOperator}
    (h : infixOperator? (operator.text.toList ++ old) = some operator) (hbeside : Beside old new)
    (hne : new ≠ []) (htails : ∀ x ∈ new.head?, x ∉ Pattern.infixTails) :
    infixOperator? (operator.text.toList ++ new) = some operator := by
  obtain ⟨x, rest, rfl⟩ := List.exists_cons_of_ne_nil hne
  refine infixOperator?_text_cons (htails x rfl) ?_ ?_ ?_
  · have hspelling := wordOr_of_infixOperator? h
    obtain ⟨y, ys, htext⟩ := exists_cons_of_infixOperator operator
    rw [htext] at hspelling ⊢
    intro z hz hstart
    obtain rfl := Option.some.inj hz
    exact hbeside.forall_head? (isIdentifierPart_of_wordOr hspelling hstart) (by decide)
      x rfl
  · rintro rfl
    exact (ne_of_beside infixOperator?_plus_plus (by decide) h hbeside x rfl).symm
  · rintro rfl
    exact (ne_of_beside infixOperator?_minus_minus (by decide) h hbeside x rfl).symm

/-- What is found of a unary operator is its spelling. -/
theorem wordOr_of_unaryOperator? {operator : UnaryOperator}
    (h : unaryOperator? text = some operator) :
    wordOr .unarySymbol text = operator.text.toList := by
  rw [unaryOperator?] at h
  split at h
  next => cases h
  next =>
    have hspelling : operator.text = String.ofList (wordOr .unarySymbol text) := by
      simpa using List.find?_some h
    rw [hspelling, String.toList_ofList]

/-- A unary operator stands at the start of the text. -/
theorem unaryOperator?_eq_some {operator : UnaryOperator}
    (h : unaryOperator? text = some operator) : ∃ rest, text = operator.text.toList ++ rest := by
  rw [← wordOr_of_unaryOperator? h]
  exact wordOr_append _ _

/-- The spelling of a unary operator is not empty. -/
theorem exists_cons_of_unaryOperator (operator : UnaryOperator) :
    ∃ y ys, operator.text.toList = y :: ys := by
  cases operator <;> exact ⟨_, _, rfl⟩

/-- An update stands at the start of the text. -/
theorem updateOperator?_eq_some {operator : UpdateOperator}
    (h : updateOperator? text = some operator) : ∃ rest, text = operator.text.toList ++ rest := by
  have hspelling : operator.text = String.ofList (Pattern.updateOperator.piece text) := by
    simpa using List.find?_some h
  rw [hspelling, String.toList_ofList]
  exact ⟨_, (Pattern.updateOperator.piece_append text).symm⟩

/-- No update operator begins where the second character is another one than the first. -/
theorem updateOperator?_cons_eq_none (hne : ∀ x ∈ rest.head?, y ≠ x) :
    updateOperator? (y :: rest) = none := by
  have hother : ∀ z : Char, [z, z].isPrefixOf (y :: rest) = false := by
    intro z
    cases rest with
    | nil => simp [List.isPrefixOf]
    | cons x xs =>
      have hboth : ¬(z = y ∧ z = x) := fun h => hne x rfl (h.1.symm.trans h.2)
      simpa [List.isPrefixOf] using hboth
  have hpiece : Pattern.updateOperator.piece (y :: rest) = [] := by
    have hplus : (Pattern.text "++").length (y :: rest) = 0 :=
      if_neg (Bool.eq_false_iff.1 (hother '+'))
    have hminus : (Pattern.text "--").length (y :: rest) = 0 :=
      if_neg (Bool.eq_false_iff.1 (hother '-'))
    have hlength : Pattern.updateOperator.length (y :: rest) = 0 := by
      refine length_firstOf_eq_zero ?_
      simp only [List.forall_mem_cons, List.not_mem_nil, false_implies, implies_true, and_true]
      exact ⟨hplus, hminus⟩
    rw [Pattern.piece, hlength]
    rfl
  rw [updateOperator?, hpiece]
  rfl

/-- Operators that are words consist of letters. -/
theorem isIdentifierStart_of_isWord {operator : UnaryOperator} (h : operator.isWord = true) :
    ∀ y ∈ operator.text.toList, isIdentifierStart y = true := by
  have hall : operator.text.toList.all isIdentifierStart = true := by
    cases operator with
    | typeof | void | delete => decide
    | minus | plus | not | bitNot => cases h
  exact List.all_eq_true.1 hall

/-- The spelling of a unary operator is found before another text. -/
theorem wordOr_unarySymbol_beside {operator : UnaryOperator}
    (h : unaryOperator? (operator.text.toList ++ old) = some operator) (hbeside : Beside old new) :
    wordOr .unarySymbol (operator.text.toList ++ new) = operator.text.toList := by
  have hword : operator.isWord = true →
      wordOr .unarySymbol (operator.text.toList ++ new) = operator.text.toList := by
    intro hisWord
    have hspelling := wordOr_of_unaryOperator? h
    have hstart := isIdentifierStart_of_isWord hisWord
    obtain ⟨y, ys, htext⟩ := exists_cons_of_unaryOperator operator
    rw [htext] at hspelling hstart ⊢
    obtain ⟨hy, hys⟩ := List.forall_mem_cons.1 hstart
    have hold := isIdentifierPart_of_wordOr hspelling hy
    rw [wordOr, leadingWord_eq_iff.2 ⟨hy, fun z hz => isIdentifierPart_of_start (hys z hz),
      hbeside.forall_head? hold (by decide)⟩]
  cases operator with
  | typeof | void | delete => exact hword rfl
  | minus | plus | not | bitNot => rfl

/-- Two signs are an update, and no unary operator. -/
theorem unaryOperator?_minus_minus (zs : List Char) : unaryOperator? ('-' :: '-' :: zs) = none :=
  rfl

/-- So it is with the other sign. -/
theorem unaryOperator?_plus_plus (zs : List Char) : unaryOperator? ('+' :: '+' :: zs) = none := rfl

/-- A unary operator is found before a text that comes to stand behind it. -/
theorem unaryOperator?_beside {operator : UnaryOperator}
    (h : unaryOperator? (operator.text.toList ++ old) = some operator) (hbeside : Beside old new) :
    unaryOperator? (operator.text.toList ++ new) = some operator := by
  have hupdate : updateOperator? (operator.text.toList ++ new) = none := by
    cases operator with
    | minus =>
      have hne := ne_of_beside unaryOperator?_minus_minus (by decide) h hbeside
      exact updateOperator?_cons_eq_none hne
    | plus =>
      have hne := ne_of_beside unaryOperator?_plus_plus (by decide) h hbeside
      exact updateOperator?_cons_eq_none hne
    | not | bitNot | typeof | void | delete =>
      exact updateOperator?_eq_none fun x hx => Option.some.inj hx ▸ by decide
  rw [unaryOperator?, isAtStart_updateOperator, hupdate, wordOr_unarySymbol_beside h hbeside,
    Option.isSome_none, if_neg Bool.false_ne_true, String.ofList_toList,
    UnaryOperator.ofText?_text]

/-- An access is found before a text that comes to stand behind it. -/
theorem access?_beside {access : Access}
    (h : access? (access.text.toList ++ old) = some access) (hbeside : Beside old new) :
    access? (access.text.toList ++ new) = some access := by
  refine access?_text ?_
  rintro rfl
  refine hbeside.forall_head? (P := fun x => x ≠ '[' ∧ x.isDigit = false) (fun x hx => ?_)
    (by decide)
  obtain ⟨zs, rfl⟩ := List.head?_eq_some_iff.1 hx
  refine ⟨?_, Bool.eq_false_iff.2 fun hdigit => ?_⟩
  · rintro rfl
    have hcomputed : access? ('?' :: '.' :: '[' :: zs) = some ⟨true, true⟩ :=
      @access?_text zs ⟨true, true⟩ nofun
    have hnamed : access? ('?' :: '.' :: '[' :: zs) = some ⟨true, false⟩ := h
    rw [hcomputed] at hnamed
    cases hnamed
  · have hfraction : Pattern.questionBeforeFraction.isAtStart ('?' :: '.' :: x :: zs) = true := by
      simp [Pattern.isAtStart, Pattern.piece, Pattern.questionBeforeFraction, Pattern.followedBy,
        Pattern.text, Pattern.one, hdigit]
    have hnamed : access? ('?' :: '.' :: x :: zs) = some ⟨true, false⟩ := h
    rw [access?, if_pos hfraction] at hnamed
    cases hnamed

/-! ## What excludes what -/

/-- The first character of an infix operator. -/
theorem head?_of_infixOperator? {operator : InfixOperator}
    (h : infixOperator? text = some operator) :
    ∀ x ∈ text.head?, isBlank x = false ∧ x.isDigit = false ∧ x ∉ ['(', ')', '.', '['] := by
  obtain ⟨rest, rfl⟩ := infixOperator?_eq_some h
  intro x hx
  rcases operator with operator | operator <;> cases operator <;> obtain rfl := Option.some.inj hx
  all_goals decide

/-- Where an infix operator stands, no access does. -/
theorem access?_of_infixOperator? {operator : InfixOperator}
    (h : infixOperator? text = some operator) : access? text = none := by
  obtain ⟨rest, rfl⟩ := infixOperator?_eq_some h
  by_cases hnullish : operator = .logical .nullish
  · subst hnullish
    rfl
  · refine access?_eq_none fun x hx => ?_
    rcases operator with operator | operator <;> cases operator <;>
      first
      | exact absurd rfl hnullish
      | (obtain rfl := Option.some.inj hx; decide)

/-- Where an update stands, no infix operator does. -/
theorem infixOperator?_of_updateOperator? {operator : UpdateOperator}
    (h : updateOperator? text = some operator) : infixOperator? text = none := by
  obtain ⟨rest, rfl⟩ := updateOperator?_eq_some h
  cases operator with
  | increment => exact infixOperator?_plus_plus rest
  | decrement => exact infixOperator?_minus_minus rest

/-- Where an infix operator stands, no update does. -/
theorem updateOperator?_of_infixOperator? {operator : InfixOperator}
    (h : infixOperator? text = some operator) : updateOperator? text = none := by
  cases hupdate : updateOperator? text with
  | none => rfl
  | some update =>
    rw [infixOperator?_of_updateOperator? hupdate] at h
    cases h

/-- Where an access stands, no infix operator does. -/
theorem infixOperator?_of_access? {access : Access} (h : access? text = some access) :
    infixOperator? text = none := by
  cases hinfixed : infixOperator? text with
  | none => rfl
  | some operator =>
    rw [access?_of_infixOperator? hinfixed] at h
    cases h

/-- The first character of an access. -/
theorem head?_of_access? {access : Access} (h : access? text = some access) :
    ∃ x, text.head? = some x ∧ x ∈ ['?', '.', '['] := by
  obtain ⟨rest, rfl⟩ := access?_eq_some h
  rcases access with ⟨_ | _, _ | _⟩ <;> exact ⟨_, rfl, by decide⟩

/-- Where an access stands, no update does. -/
theorem updateOperator?_of_access? {access : Access} (h : access? text = some access) :
    updateOperator? text = none := by
  obtain ⟨x, hx, hmem⟩ := head?_of_access? h
  refine updateOperator?_eq_none fun y hy => ?_
  obtain rfl := Option.some.inj (hx.symm.trans hy)
  refine ⟨?_, ?_⟩ <;> rintro rfl <;> revert hmem <;> decide

end Token

/-! ## Texts that end a reading -/

namespace Text

open Token

variable {x : Char} {old new run : List Char}

/-- What ends everything that is read: a closing bracket, and a comma unless it would be taken. -/
def closers (takesComma : Bool) : List Char :=
  if takesComma then [')', ']'] else [')', ']', ',']

/-- A comma is the only closer that may be taken. -/
theorem closers_subset (takesComma : Bool) : closers takesComma ⊆ closers false := by
  cases takesComma <;> decide

/-- Closers are no blanks. -/
theorem isBlank_of_mem_closers {takesComma : Bool} (h : x ∈ closers takesComma) :
    isBlank x = false := by
  have hall : ∀ y ∈ closers false, isBlank y = false := by decide
  exact hall x (closers_subset takesComma h)

/-- Closers are delimiters. -/
theorem mem_delimiters_of_mem_closers {takesComma : Bool} (h : x ∈ closers takesComma) :
    x ∈ delimiters :=
  List.mem_cons_of_mem _ (closers_subset takesComma h)

/-- Text that comes to stand behind what has been read in place of another one: nothing goes on with
what has been read that did not go on before. There may be what ends everything that is read. -/
structure Follows (takesComma : Bool) (old new : List Char) : Prop where
  head : ∀ x ∈ new.head?, x ∈ old.head? ∨ x ∈ closers takesComma
  number : Pattern.numberStart.isAtStart new = true → Pattern.numberStart.isAtStart old = true
  first : ∀ x ∈ (new.dropWhile isBlank).head?,
    x ∈ (old.dropWhile isBlank).head? ∨ x ∈ closers takesComma
  access : ∀ a ∈ access? (new.dropWhile isBlank), a ∈ access? (old.dropWhile isBlank)
  infixed : ∀ a ∈ infixOperator? (new.dropWhile isBlank),
    a ∈ infixOperator? (old.dropWhile isBlank)
  update : ∀ a ∈ updateOperator? (new.dropWhile isInlineBlank),
    a ∈ updateOperator? (old.dropWhile isInlineBlank)

variable {takesComma : Bool}

/-- A text may stay where it is. -/
theorem Follows.refl (text : List Char) : Follows takesComma text text :=
  ⟨fun _ => Or.inl, id, fun _ => Or.inl, fun _ => id, fun _ => id, fun _ => id⟩

/-- The first character is the same, or a delimiter. -/
theorem Follows.beside (h : Follows takesComma old new) : Beside old new :=
  fun x hx => (h.head x hx).imp_right mem_delimiters_of_mem_closers

/-- A character that did not follow does not follow, unless it closes. -/
theorem Follows.head?_ne {y : Char} (h : Follows takesComma old new) (hold : old.head? ≠ some y)
    (hy : y ∉ closers false) : new.head? ≠ some y :=
  fun hnew => (h.head y hnew).elim hold fun hmem => hy (closers_subset takesComma hmem)

/-- A comma that would be taken does not come to stand. -/
theorem Follows.head?_ne_comma (h : Follows true old new) (hold : old.head? ≠ some ',') :
    new.head? ≠ some ',' :=
  fun hnew => (h.head ',' hnew).elim hold (by decide)

/-- Where a comma would be taken, less may come to stand. -/
theorem Follows.untaken (h : Follows takesComma old new) : Follows false old new :=
  ⟨fun x hx => (h.head x hx).imp_right fun hmem => closers_subset takesComma hmem, h.number,
    fun x hx => (h.first x hx).imp_right fun hmem => closers_subset takesComma hmem, h.access,
    h.infixed, h.update⟩

/-- Before a solid character there are no blanks to be dropped. -/
theorem not_isBlank_of_head? {text : List Char} (h : text.head? = some x)
    (hx : isBlank x = false) :
    text.dropWhile isBlank = text ∧ text.dropWhile isInlineBlank = text := by
  obtain ⟨xs, rfl⟩ := List.head?_eq_some_iff.1 h
  have hinline : isInlineBlank x = false := by simp [isInlineBlank, hx]
  exact ⟨List.dropWhile_cons_of_neg (by simp [hx]), List.dropWhile_cons_of_neg (by simp [hinline])⟩

/-- Texts that begin with the same character that is no blank are compared where they begin. -/
theorem follows_of_head (hx : isBlank x = false) (hold : old.head? = some x)
    (hnew : new.head? = some x)
    (hnumber : Pattern.numberStart.isAtStart new = true →
      Pattern.numberStart.isAtStart old = true)
    (haccess : ∀ a ∈ access? new, a ∈ access? old)
    (hinfixed : ∀ a ∈ infixOperator? new, a ∈ infixOperator? old)
    (hupdate : ∀ a ∈ updateOperator? new, a ∈ updateOperator? old) :
    Follows takesComma old new := by
  obtain ⟨hdrop, hdropInline⟩ := not_isBlank_of_head? hnew hx
  obtain ⟨hdrop', hdropInline'⟩ := not_isBlank_of_head? hold hx
  refine ⟨?_, hnumber, ?_, ?_, ?_, ?_⟩
  · exact fun y hy => Or.inl (hold.trans (hnew.symm.trans hy))
  · rw [hdrop, hdrop']
    exact fun y hy => Or.inl (hold.trans (hnew.symm.trans hy))
  · rwa [hdrop, hdrop']
  · rwa [hdrop, hdrop']
  · rwa [hdropInline, hdropInline']

/-- Nothing goes on before one of these characters. -/
theorem nothing_before_closer {text : List Char} (h : text.head? = some x)
    (hx : x ∈ ['(', ')', ']', ',', ':']) :
    isBlank x = false ∧ Pattern.numberStart.isAtStart text = false ∧ access? text = none ∧
      infixOperator? text = none ∧ updateOperator? text = none := by
  have hall : ['(', ')', ']', ',', ':'].all (fun y => !isBlank y && (!y.isDigit && y != '.') &&
      (y != '?' && y != '[') && (!isIdentifierStart y && !(y ∈ infixSymbols)) &&
      (y != '+' && y != '-')) = true := by
    decide
  have hkind := List.all_eq_true.1 hall x hx
  simp only [Bool.and_eq_true, Bool.not_eq_true', decide_eq_false_iff_not, bne_iff_ne,
    ne_eq] at hkind
  obtain ⟨⟨⟨⟨hblank, hdigit, hpoint⟩, hquestion, hbracket⟩, hword⟩, hsign⟩ := hkind
  have hhead : ∀ y ∈ text.head?, x = y := fun y hy => Option.some.inj (h.symm.trans hy)
  exact ⟨hblank, numberStart_eq_false fun y hy => hhead y hy ▸ ⟨hdigit, hpoint⟩,
    access?_eq_none fun y hy => hhead y hy ▸ ⟨hquestion, hpoint, hbracket⟩,
    infixOperator?_eq_none fun y hy => hhead y hy ▸ hword,
    updateOperator?_eq_none fun y hy => hhead y hy ▸ hsign⟩

/-- The same delimiter or colon follows. -/
theorem follows_char (takesComma : Bool) (hold : old.head? = some x) (hnew : new.head? = some x)
    (hx : x ∈ ['(', ')', ']', ',', ':']) : Follows takesComma old new := by
  obtain ⟨hblank, hnumber, haccess, hinfixed, hupdate⟩ := nothing_before_closer hnew hx
  refine follows_of_head hblank hold hnew ?_ ?_ ?_ ?_
  · rw [hnumber]
    exact nofun
  · rw [haccess]
    exact nofun
  · rw [hinfixed]
    exact nofun
  · rw [hupdate]
    exact nofun

/-- The end of the text ends whatever is read. -/
theorem follows_nil (old : List Char) : Follows takesComma old [] := by
  refine ⟨nofun, ?_, nofun, nofun, nofun, nofun⟩
  rw [numberStart_eq_false fun x hx => by cases hx]
  exact nofun

/-- So does a closer. -/
theorem follows_closer (old : List Char) (h : new.head? = some x) (hx : x ∈ closers takesComma) :
    Follows takesComma old new := by
  obtain ⟨hblank, hnumber, haccess, hinfixed, hupdate⟩ :=
    nothing_before_closer h
      ((by decide : delimiters ⊆ ['(', ')', ']', ',', ':']) (mem_delimiters_of_mem_closers hx))
  obtain ⟨hdrop, hdropInline⟩ := not_isBlank_of_head? h hblank
  refine ⟨?_, ?_, ?_, ?_, ?_, ?_⟩
  · exact fun y hy => Or.inr (Option.some.inj (h.symm.trans hy) ▸ hx)
  · rw [hnumber]
    exact nofun
  · rw [hdrop]
    exact fun y hy => Or.inr (Option.some.inj (h.symm.trans hy) ▸ hx)
  · rw [hdrop, haccess]
    exact nofun
  · rw [hdrop, hinfixed]
    exact nofun
  · rw [hdropInline, hupdate]
    exact nofun

/-- So does either of them. -/
theorem follows_of_closes (old : List Char) (h : ∀ x ∈ new.head?, x ∈ closers takesComma) :
    Follows takesComma old new := by
  cases new with
  | nil => exact follows_nil old
  | cons x xs => exact follows_closer old rfl (h x rfl)

/-- The same infix operator follows. -/
theorem follows_infixOperator {operator : InfixOperator} (hold : infixOperator? old = some operator)
    (hnew : infixOperator? new = some operator) : Follows takesComma old new := by
  obtain ⟨x, hx, hx'⟩ : ∃ x, old.head? = some x ∧ new.head? = some x := by
    obtain ⟨y, ys, htext⟩ := exists_cons_of_infixOperator operator
    obtain ⟨_, rfl⟩ := infixOperator?_eq_some hold
    obtain ⟨_, rfl⟩ := infixOperator?_eq_some hnew
    rw [htext]
    exact ⟨y, rfl, rfl⟩
  obtain ⟨hblank, hdigit, hother⟩ := head?_of_infixOperator? hnew x hx'
  have hnumber : Pattern.numberStart.isAtStart new = false := numberStart_eq_false fun y hy => by
    obtain rfl := Option.some.inj (hx'.symm.trans hy)
    refine ⟨hdigit, ?_⟩
    rintro rfl
    exact hother (by decide)
  refine follows_of_head hblank hx hx' ?_ ?_ ?_ ?_
  · rw [hnumber]
    exact nofun
  · rw [access?_of_infixOperator? hnew]
    exact nofun
  · rw [hold, hnew]
    exact fun _ => id
  · rw [updateOperator?_of_infixOperator? hnew]
    exact nofun

/-- The same update follows. -/
theorem follows_update {operator : UpdateOperator} (hold : updateOperator? old = some operator)
    (hnew : updateOperator? new = some operator) : Follows takesComma old new := by
  obtain ⟨x, hx, hx', hsign⟩ :
      ∃ x, old.head? = some x ∧ new.head? = some x ∧ (x = '+' ∨ x = '-') := by
    obtain ⟨_, rfl⟩ := updateOperator?_eq_some hold
    obtain ⟨_, rfl⟩ := updateOperator?_eq_some hnew
    cases operator with
    | increment => exact ⟨_, rfl, rfl, Or.inl rfl⟩
    | decrement => exact ⟨_, rfl, rfl, Or.inr rfl⟩
  have hkind : isBlank x = false ∧ (x.isDigit = false ∧ x ≠ '.') ∧ x ≠ '?' ∧ x ≠ '.' ∧ x ≠ '[' := by
    rcases hsign with rfl | rfl <;> decide
  have hhead : ∀ y ∈ new.head?, x = y := fun y hy => Option.some.inj (hx'.symm.trans hy)
  have hnumber : Pattern.numberStart.isAtStart new = false :=
    numberStart_eq_false fun y hy => hhead y hy ▸ hkind.2.1
  have haccess : access? new = none := access?_eq_none fun y hy => hhead y hy ▸ hkind.2.2
  refine follows_of_head hkind.1 hx hx' ?_ ?_ ?_ ?_
  · rw [hnumber]
    exact nofun
  · rw [haccess]
    exact nofun
  · rw [infixOperator?_of_updateOperator? hnew]
    exact nofun
  · rw [hold, hnew]
    exact fun _ => id

/-- A point begins a number before a digit. -/
theorem numberStart_point {text : List Char} :
    Pattern.numberStart.isAtStart ('.' :: text) = true ↔
      ∃ x, text.head? = some x ∧ x.isDigit = true := by
  rw [Pattern.numberStart_isAtStart]
  constructor
  · rintro (⟨d, rest, heq, hd⟩ | ⟨d, rest, heq, hd⟩)
    · obtain ⟨rfl, -⟩ := List.cons.inj heq
      cases hd
    · obtain ⟨-, rfl⟩ := List.cons.inj heq
      exact ⟨d, rfl, hd⟩
  · rintro ⟨x, hx, hdigit⟩
    obtain ⟨rest, rfl⟩ := List.head?_eq_some_iff.1 hx
    exact Or.inr ⟨x, rest, rfl, hdigit⟩

/-- The same access follows, with a text beside it that begins alike. -/
theorem follows_access {access : Access} (hold : access? (access.text.toList ++ old) = some access)
    (hbeside : Beside old new) :
    Follows takesComma (access.text.toList ++ old) (access.text.toList ++ new) := by
  have hnew := access?_beside hold hbeside
  obtain ⟨x, hx, hx', hmem⟩ : ∃ x, (access.text.toList ++ old).head? = some x ∧
      (access.text.toList ++ new).head? = some x ∧ x ∈ ['?', '.', '['] := by
    rcases access with ⟨_ | _, _ | _⟩ <;> exact ⟨_, rfl, rfl, by decide⟩
  have hblank : isBlank x = false := by
    have hall : ['?', '.', '['].all (fun x => !isBlank x) = true := by decide
    simpa using List.all_eq_true.1 hall x hmem
  refine follows_of_head hblank hx hx' ?_ ?_ ?_ ?_
  · -- Only a point on its own may begin a number, and then the character after it is the same one.
    rcases access with ⟨_ | _, _ | _⟩
    · intro hnumber
      obtain ⟨y, hy, hdigit⟩ := numberStart_point.1 hnumber
      rcases hbeside y hy with hy | hy
      · exact numberStart_point.2 ⟨y, hy, hdigit⟩
      · have hnone : ∀ y ∈ delimiters, y.isDigit = false := by decide
        rw [hnone y hy] at hdigit
        cases hdigit
    all_goals exact nofun
  · rw [hold, hnew]
    exact fun _ => id
  · rw [infixOperator?_of_access? hnew]
    exact nofun
  · rw [updateOperator?_of_access? hnew]
    exact nofun

/-- A question mark that begins neither an access nor an operator is that of a conditional. -/
theorem follows_question (haccess : access? ('?' :: new) = none)
    (hinfixed : infixOperator? ('?' :: new) = none) :
    Follows takesComma ('?' :: old) ('?' :: new) := by
  have hnumber : Pattern.numberStart.isAtStart ('?' :: new) = false :=
    numberStart_eq_false fun y hy => Option.some.inj hy ▸ by decide
  have hupdate : updateOperator? ('?' :: new) = none :=
    updateOperator?_eq_none fun y hy => Option.some.inj hy ▸ by decide
  refine follows_of_head (by decide) rfl rfl ?_ ?_ ?_ ?_
  · rw [hnumber]
    exact nofun
  · rw [haccess]
    exact nofun
  · rw [hinfixed]
    exact nofun
  · rw [hupdate]
    exact nofun

/-- Blanks are no digits. -/
theorem not_isDigit_of_isBlank (hx : isBlank x = true) : x.isDigit = false :=
  Bool.eq_false_iff.2 fun hdigit => by
    rw [isBlank_of_isDigit hdigit] at hx
    cases hx

/-- Behind blanks with a line end there is no update operator on the line. -/
theorem updateOperator?_dropWhile_append (hrun : ∀ x ∈ run, isBlank x = true) (text : List Char) :
    updateOperator? ((run ++ text).dropWhile isInlineBlank) = none ∨
      (∀ text : List Char,
        (run ++ text).dropWhile isInlineBlank = text.dropWhile isInlineBlank) := by
  cases hrest : run.dropWhile isInlineBlank with
  | nil => exact Or.inr fun text => by rw [List.dropWhile_append, hrest]; rfl
  | cons z zs =>
    left
    have hz : isBlank z = true :=
      hrun z ((List.dropWhile_sublist _).subset (hrest ▸ List.mem_cons_self ..))
    rw [List.dropWhile_append, hrest]
    refine updateOperator?_eq_none fun y hy => ?_
    obtain rfl := Option.some.inj hy
    refine ⟨?_, ?_⟩ <;> rintro rfl <;> revert hz <;> decide

/-- Blanks before both texts make no difference. -/
theorem Follows.blanks (h : Follows takesComma old new) (hrun : ∀ x ∈ run, isBlank x = true) :
    Follows takesComma (run ++ old) (run ++ new) := by
  have hdrop : ∀ text : List Char, (run ++ text).dropWhile isBlank = text.dropWhile isBlank :=
    fun text => List.dropWhile_append_of_pos hrun
  refine ⟨?_, ?_, ?_, ?_, ?_, ?_⟩
  · cases run with
    | nil => exact h.head
    | cons x xs => exact fun y hy => Or.inl hy
  · cases run with
    | nil => exact h.number
    | cons x xs =>
      have hx := hrun x (List.mem_cons_self ..)
      have hnumber : Pattern.numberStart.isAtStart (x :: xs ++ new) = false :=
        numberStart_eq_false fun y hy => by
          obtain rfl := Option.some.inj hy
          refine ⟨not_isDigit_of_isBlank hx, ?_⟩
          rintro rfl
          revert hx
          decide
      rw [hnumber]
      exact nofun
  · rw [hdrop, hdrop]
    exact h.first
  · rw [hdrop, hdrop]
    exact h.access
  · rw [hdrop, hdrop]
    exact h.infixed
  · rcases updateOperator?_dropWhile_append hrun new with hnone | hinline
    · rw [hnone]
      exact nofun
    · rw [hinline, hinline]
      exact h.update

end Text

end Estree
