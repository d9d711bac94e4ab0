import Estree.Proofs.Grammar.Lookahead
import Estree.Proofs.Number.Numeral

/-!
# What is left of a text without its layout

Blanks, parentheses and commas that stand for nothing are layout. `residue` is what a text says
apart from it, and `Undotted` leaves out points that say nothing either. `Sheds` joins the two, and
has a lemma for every kind of character, so that a text is taken apart from the front and nothing
needs to be known of what precedes but two things: whether an element of an array begins (then a
comma stands for a hole), and whether the last character was `?` (then a point belongs to it).

Whether a comma says something depends on what follows it as well: before a parenthesis that closes
it never does, and before a bracket only where a hole precedes it (`isIdleComma`). So the residue of
a text is not put together from the residues of its pieces. The second half of the module says what
a piece adds to the residue of *any* text that it stands in:

> `Skips text rest`: only blanks come before the rest.
> `Continues text piece rest`: up to its rest the text leaves a piece, if it goes on after an
> expression. So do links and commas.
> `Contributes text piece rest`: the same wherever the text begins. So do operands.
> `Fills text piece rest`: the same where an element of an array may begin. So do elements, and the
> commas that make holes.

All four can be chained (`Continues.trans`, `Contributes.trans`), and the proofs about readers and
writers are made of such chains, without any look at the characters.
-/

namespace Estree

namespace Text

variable {opened asked : Bool} {x : Char} {text text' piece rest out xs : List Char}

/-- The next character that is no blank. -/
def nextSolid? (text : List Char) : Option Char :=
  (text.dropWhile isBlank).head?

/-- Whether a comma before this text says nothing: before `)` it never does, and before `]` only
where a hole precedes it, that is, right after `[` or another comma. -/
def isIdleComma (opened : Bool) (rest : List Char) : Bool :=
  nextSolid? rest == some ')' || (nextSolid? rest == some ']' && !opened)

/-- Whether an element of an array begins after the character. -/
def opensElement (x : Char) : Bool :=
  x == ',' || x == '['

/-- What is left of a text without blanks, parentheses and idle commas. The flag says whether the
last character before it, apart from blanks, is `,` or `[`. -/
def residue (opened : Bool) : List Char → List Char
  | [] => []
  | x :: rest =>
    if isBlank x then residue opened rest
    else if x == '(' || x == ')' || (x == ',' && isIdleComma opened rest) then
      residue (opensElement x) rest
    else x :: residue (opensElement x) rest

/-- The second text is the first one without some of the points that stand before `(` and not right
after `?`. The flag says whether the text itself comes right after `?`. -/
inductive Undotted : Bool → List Char → List Char → Prop
  | nil {asked : Bool} : Undotted asked [] []
  | keep {asked : Bool} {x : Char} {rest rest' : List Char} :
    Undotted (x == '?') rest rest' → Undotted asked (x :: rest) (x :: rest')
  | drop {rest rest' : List Char} :
    nextSolid? rest = some '(' → Undotted false rest rest' → Undotted false ('.' :: rest) rest'

/-! ## The next solid character -/

/-- Blanks are passed over. -/
theorem nextSolid?_blank (hx : isBlank x = true) : nextSolid? (x :: rest) = nextSolid? rest := by
  rw [nextSolid?, List.dropWhile_cons_of_pos hx]
  rfl

/-- Anything else is the next character. -/
theorem nextSolid?_solid (hx : isBlank x = false) : nextSolid? (x :: rest) = some x := by
  rw [nextSolid?, List.dropWhile_cons_of_neg (Bool.eq_false_iff.1 hx)]
  rfl

/-- Only a point before `(` is left out, so no closing bracket comes next that did not before. -/
theorem Undotted.isIdleComma_eq (h : Undotted asked text text') (opened : Bool) :
    isIdleComma opened text' = isIdleComma opened text := by
  induction h with
  | nil => rfl
  | @keep _ x rest rest' _ ih =>
    unfold isIdleComma at ih ⊢
    by_cases hx : isBlank x = true
    · rw [nextSolid?_blank hx, nextSolid?_blank hx]
      exact ih
    · have hx' := Bool.eq_false_iff.2 hx
      rw [nextSolid?_solid hx', nextSolid?_solid hx']
  | @drop rest rest' hnext _ ih =>
    have hpoint : isBlank '.' = false := by decide
    unfold isIdleComma at ih ⊢
    rw [ih, hnext, nextSolid?_solid hpoint]
    rfl

/-! ## The residue, character by character -/

/-- The character is neither a blank nor layout at some places. -/
def IsLasting (x : Char) : Prop :=
  isBlank x = false ∧ x ∉ ['(', ')', ',']

/-- Of lasting characters only `[` begins an element. -/
theorem IsLasting.opensElement_eq (hx : IsLasting x) (hopen : x ≠ '[') :
    opensElement x = false := by
  have hcomma : x ≠ ',' := by
    rintro rfl
    exact hx.2 (by decide)
  simp [opensElement, hopen, hcomma]

instance : DecidablePred IsLasting := fun _ => inferInstanceAs (Decidable (_ ∧ _))

/-- Blanks are layout. -/
theorem residue_blank (hx : isBlank x = true) :
    residue opened (x :: rest) = residue opened rest := by
  rw [residue, if_pos hx]

/-- So are parentheses. -/
theorem residue_paren (hx : x = '(' ∨ x = ')') :
    residue opened (x :: rest) = residue false rest := by
  rcases hx with rfl | rfl
  · rfl
  · rfl

/-- So are commas that say nothing. -/
theorem residue_idleComma (h : isIdleComma opened rest = true) :
    residue opened (',' :: rest) = residue true rest := by
  have hblank : ¬isBlank ',' = true := by decide
  rw [residue, if_neg hblank, if_pos (by simp [h])]
  rfl

/-- A comma that says something stays. -/
theorem residue_comma (h : isIdleComma opened rest = false) :
    residue opened (',' :: rest) = ',' :: residue true rest := by
  have hblank : ¬isBlank ',' = true := by decide
  rw [residue, if_neg hblank, if_neg (by simp [h])]
  rfl

/-- A lasting character stays. -/
theorem residue_lasting (hx : IsLasting x) :
    residue opened (x :: rest) = x :: residue (opensElement x) rest := by
  obtain ⟨hblank, hx⟩ := hx
  rw [residue, if_neg (Bool.eq_false_iff.1 hblank), if_neg]
  simp only [List.mem_cons, List.not_mem_nil, or_false, not_or] at hx
  simp [hx]

/-- A run of characters that begin no element is left as it is. -/
theorem residue_append (hne : xs ≠ []) (hxs : ∀ x ∈ xs, IsLasting x ∧ x ≠ '[') :
    residue opened (xs ++ rest) = xs ++ residue false rest := by
  induction xs generalizing opened with
  | nil => exact absurd rfl hne
  | cons x xs ih =>
    obtain ⟨⟨hx, hopen⟩, htail⟩ := List.forall_mem_cons.1 hxs
    rw [List.cons_append, residue_lasting hx, hx.opensElement_eq hopen, List.cons_append]
    cases xs with
    | nil => rfl
    | cons y ys => rw [ih (List.cons_ne_nil y ys) htail]

/-! ## Words, numerals and operators -/

/-- The character is part of a word, of a numeral or of an operator. -/
def IsPlain (x : Char) : Prop :=
  IsLasting x ∧ x ∉ ['[', ']', '?']

instance : DecidablePred IsPlain := fun _ => inferInstanceAs (Decidable (_ ∧ _))

/-- Words are plain. -/
theorem isPlain_of_isIdentifierPart (h : isIdentifierPart x = true) : IsPlain x := by
  have hblank : isBlank x = false := Bool.eq_false_iff.2 fun hblank => by
    rw [isIdentifierPart_of_isBlank hblank] at h
    cases h
  have hsymbols : ∀ others : List Char, others ⊆ symbols → x ∉ others := fun others hothers hx => by
    rw [isIdentifierPart_of_mem_symbols (hothers hx)] at h
    cases h
  exact ⟨⟨hblank, hsymbols _ (by decide)⟩, hsymbols _ (by decide)⟩

/-- Digits are plain. -/
theorem isPlain_of_isDigit (h : x.isDigit = true) : IsPlain x :=
  isPlain_of_isIdentifierPart (isIdentifierPart_of_isDigit h)

/-- A word has parts of identifiers only. -/
theorem isIdentifierPart_of_mem_leadingWord (h : x ∈ leadingWord text) :
    isIdentifierPart x = true := by
  cases text with
  | nil => cases h
  | cons y ys =>
    rw [leadingWord] at h
    split at h
    next hy =>
      rcases List.mem_cons.1 h with rfl | h
      · exact isIdentifierPart_of_start hy
      · exact List.all_eq_true.1 List.all_takeWhile x h
    next => cases h

/-- Numerals are plain, their points and signs included. -/
theorem isPlain_of_mem_numeral (h : IsNumeral text) (hx : x ∈ text) : IsPlain x := by
  have hpoint : IsPlain '.' := by decide
  have hmarker : ∀ y, y = 'e' ∨ y = 'E' → IsPlain y := by
    rintro y (rfl | rfl)
    · exact isPlain_of_isIdentifierPart (by decide)
    · exact isPlain_of_isIdentifierPart (by decide)
  have hsign : ∀ y, y = '+' ∨ y = '-' → IsPlain y := by
    rintro y (rfl | rfl)
    · decide
    · decide
  obtain ⟨mantissa, power, hmantissa, hpower, rfl⟩ := h
  rcases List.mem_append.1 hx with hx | hx
  · cases hmantissa with
    | whole hdigits => exact isPlain_of_isDigit (hdigits.2 x hx)
    | pointed hdigits hfraction =>
      rcases List.mem_append.1 hx with hx | hx
      · exact isPlain_of_isDigit (hdigits.2 x hx)
      · rcases List.mem_cons.1 hx with rfl | hx
        · exact hpoint
        · exact isPlain_of_isDigit (hfraction x hx)
    | fraction hdigits =>
      rcases List.mem_cons.1 hx with rfl | hx
      · exact hpoint
      · exact isPlain_of_isDigit (hdigits.2 x hx)
  · rcases hpower with rfl | hpower
    · cases hx
    · cases hpower with
      | unsigned hm hdigits =>
        rcases List.mem_cons.1 hx with rfl | hx
        · exact hmarker x hm
        · exact isPlain_of_isDigit (hdigits.2 x hx)
      | signed hm hs hdigits =>
        rcases List.mem_cons.1 hx with rfl | hx
        · exact hmarker x hm
        · rcases List.mem_cons.1 hx with rfl | hx
          · exact hsign x hs
          · exact isPlain_of_isDigit (hdigits.2 x hx)

/-- Infix operators are lasting. -/
theorem isLasting_infixOperator (operator : InfixOperator) :
    ∀ x ∈ operator.text.toList, IsLasting x := by
  rcases operator with operator | operator <;> cases operator <;> decide

/-- So are unary operators. -/
theorem isLasting_unaryOperator (operator : UnaryOperator) :
    ∀ x ∈ operator.text.toList, IsLasting x := by
  cases operator <;> decide

/-- So are the signs of accesses. -/
theorem isLasting_access (access : Access) : ∀ x ∈ access.text.toList, IsLasting x := by
  rcases access with ⟨_ | _, _ | _⟩ <;> decide

/-! ## Residues without some points -/

/-- What is left of the text, if some points before `(` are left out as well. -/
def Sheds (opened asked : Bool) (text out : List Char) : Prop :=
  ∃ text', Undotted asked text text' ∧ residue opened text' = out

/-- A blank leaves nothing. -/
theorem sheds_blank (hx : isBlank x = true) (h : Sheds opened false rest out) :
    Sheds opened asked (x :: rest) out := by
  obtain ⟨rest', hundotted, hresidue⟩ := h
  have hquestion : (x == '?') = false := beq_eq_false_iff_ne.2 fun heq => by
    rw [heq] at hx
    cases hx
  refine ⟨x :: rest', .keep (hquestion ▸ hundotted), ?_⟩
  rw [residue_blank hx, hresidue]

/-- A parenthesis leaves nothing. -/
theorem sheds_paren (hx : x = '(' ∨ x = ')') (h : Sheds false false rest out) :
    Sheds opened asked (x :: rest) out := by
  obtain ⟨rest', hundotted, hresidue⟩ := h
  have hquestion : (x == '?') = false := by
    rcases hx with rfl | rfl
    · rfl
    · rfl
  refine ⟨x :: rest', .keep (hquestion ▸ hundotted), ?_⟩
  rw [residue_paren hx, hresidue]

/-- A lasting character leaves itself. -/
theorem sheds_lasting (hx : IsLasting x) (h : Sheds (opensElement x) (x == '?') rest out) :
    Sheds opened asked (x :: rest) (x :: out) := by
  obtain ⟨rest', hundotted, hresidue⟩ := h
  refine ⟨x :: rest', .keep hundotted, ?_⟩
  rw [residue_lasting hx, hresidue]

/-- A comma that says nothing leaves nothing. -/
theorem sheds_idleComma (hidle : isIdleComma opened rest = true) (h : Sheds true false rest out) :
    Sheds opened asked (',' :: rest) out := by
  obtain ⟨rest', hundotted, hresidue⟩ := h
  refine ⟨',' :: rest', .keep hundotted, ?_⟩
  rw [residue_idleComma (hundotted.isIdleComma_eq opened ▸ hidle), hresidue]

/-- A comma that says something leaves itself. -/
theorem sheds_comma (hidle : isIdleComma opened rest = false) (h : Sheds true false rest out) :
    Sheds opened asked (',' :: rest) (',' :: out) := by
  obtain ⟨rest', hundotted, hresidue⟩ := h
  refine ⟨',' :: rest', .keep hundotted, ?_⟩
  rw [residue_comma (hundotted.isIdleComma_eq opened ▸ hidle), hresidue]

/-- A point before `(` says nothing. -/
theorem sheds_point (hnext : nextSolid? rest = some '(') (h : Sheds opened false rest out) :
    Sheds opened false ('.' :: rest) out := by
  obtain ⟨rest', hundotted, hresidue⟩ := h
  exact ⟨rest', .drop hnext hundotted, hresidue⟩

/-- A run of lasting characters is left wherever it stands, if what follows does not ask what
precedes it. -/
theorem sheds_append (hxs : ∀ x ∈ xs, IsLasting x)
    (h : ∀ opened asked, Sheds opened asked rest out) :
    Sheds opened asked (xs ++ rest) (xs ++ out) := by
  induction xs generalizing opened asked with
  | nil => exact h opened asked
  | cons x xs ih =>
    obtain ⟨hx, htail⟩ := List.forall_mem_cons.1 hxs
    exact sheds_lasting hx (ih htail)

/-! ## Pieces of a text -/

/-- Only blanks come before the rest of the text. -/
def Skips (text rest : List Char) : Prop :=
  ∃ blanks, text = blanks ++ rest ∧ ∀ x ∈ blanks, isBlank x = true

/-- Up to its rest the text leaves a piece, if it goes on after an expression. -/
def Continues (text piece rest : List Char) : Prop :=
  ∀ out, Sheds false false rest out → Sheds false false text (piece ++ out)

/-- Up to its rest the text leaves a piece, whatever precedes it. -/
def Contributes (text piece rest : List Char) : Prop :=
  ∀ opened asked out, Sheds false false rest out → Sheds opened asked text (piece ++ out)

theorem Skips.refl (text : List Char) : Skips text text := ⟨[], rfl, nofun⟩

theorem Skips.trans {between : List Char} (h : Skips text between) (h' : Skips between rest) :
    Skips text rest := by
  obtain ⟨blanks, rfl, hblanks⟩ := h
  obtain ⟨blanks', rfl, hblanks'⟩ := h'
  refine ⟨blanks ++ blanks', (List.append_assoc ..).symm, fun x hx => ?_⟩
  rcases List.mem_append.1 hx with hx | hx
  · exact hblanks x hx
  · exact hblanks' x hx

/-- Skipped blanks do not change what comes next. -/
theorem Skips.nextSolid?_eq (h : Skips text rest) : nextSolid? text = nextSolid? rest := by
  obtain ⟨blanks, rfl, hblanks⟩ := h
  rw [nextSolid?, List.dropWhile_append_of_pos hblanks]
  rfl

/-- Skipped blanks leave nothing, whatever preceded them. -/
theorem Skips.sheds (h : Skips text rest) (hrest : ∀ asked, Sheds opened asked rest out) :
    Sheds opened asked text out := by
  obtain ⟨blanks, rfl, hblanks⟩ := h
  induction blanks generalizing asked with
  | nil => exact hrest asked
  | cons x blanks ih =>
    obtain ⟨hx, htail⟩ := List.forall_mem_cons.1 hblanks
    exact sheds_blank hx (ih htail)

/-- The same where no point may belong to what precedes. -/
theorem Skips.sheds_false (h : Skips text rest) (hrest : Sheds opened false rest out) :
    Sheds opened false text out := by
  obtain ⟨blanks, rfl, hblanks⟩ := h
  induction blanks with
  | nil => exact hrest
  | cons x blanks ih =>
    obtain ⟨hx, htail⟩ := List.forall_mem_cons.1 hblanks
    exact sheds_blank hx (ih htail)

/-- Skipped blanks may stand before an operand. -/
theorem Skips.contributes {between : List Char} (h : Skips text between)
    (hbetween : Contributes between piece rest) : Contributes text piece rest :=
  fun opened _ out hout => h.sheds fun asked => hbetween opened asked out hout

/-- They may stand before a link or a comma. -/
theorem Skips.continues {between : List Char} (h : Skips text between)
    (hbetween : Continues between piece rest) : Continues text piece rest :=
  fun out hout => h.sheds_false (hbetween out hout)

theorem Continues.refl (text : List Char) : Continues text [] text := fun _ hout => hout

/-- One piece after another. -/
theorem Continues.trans {between piece' : List Char} (h : Continues text piece between)
    (h' : Continues between piece' rest) : Continues text (piece ++ piece') rest := by
  intro out hout
  rw [List.append_assoc]
  exact h _ (h' out hout)

/-- What may stand anywhere may stand after an expression. -/
theorem Contributes.continues (h : Contributes text piece rest) : Continues text piece rest :=
  h false false

/-- An operand before another one, with nothing between them. -/
theorem Contributes.trans {between piece' : List Char} (h : Contributes text piece between)
    (h' : Continues between piece' rest) : Contributes text (piece ++ piece') rest := by
  intro opened asked out hout
  rw [List.append_assoc]
  exact h opened asked _ (h' out hout)

/-- Blanks may follow an expression. -/
theorem Contributes.skips {between : List Char} (h : Contributes text piece between)
    (hskips : Skips between rest) : Contributes text piece rest :=
  fun opened asked out hout => h opened asked out (hskips.sheds_false hout)

/-- Skipped blanks may stand at the end. -/
theorem Continues.skips {between : List Char} (h : Continues text piece between)
    (hskips : Skips between rest) : Continues text piece rest :=
  fun out hout => h out (hskips.sheds_false hout)

/-- An operator does not ask what precedes it, and its operand does not either. -/
theorem Contributes.after (hxs : ∀ x ∈ xs, IsLasting x) (h : Contributes text piece rest) :
    Contributes (xs ++ text) (xs ++ piece) rest := by
  intro opened asked out hout
  rw [List.append_assoc]
  exact sheds_append hxs fun opened asked => h opened asked out hout

/-- A parenthesis may stand before an operand. -/
theorem Contributes.group (h : Contributes text piece rest) :
    Contributes ('(' :: text) piece rest :=
  fun _ _ out hout => sheds_paren (Or.inl rfl) (h false false out hout)

/-- A parenthesis alone leaves nothing. -/
theorem contributes_paren (hx : x = '(' ∨ x = ')') : Contributes (x :: rest) [] rest :=
  fun _ _ _ hout => sheds_paren hx hout

/-- A bracket that closes leaves itself. -/
theorem contributes_bracket : Contributes (']' :: rest) [']'] rest :=
  fun _ _ _ hout => sheds_lasting (by decide) hout

/-- A comma between two expressions is left. -/
theorem continues_comma (hidle : isIdleComma false text = false)
    (h : Contributes text piece rest) : Continues (',' :: text) (',' :: piece) rest :=
  fun out hout => sheds_comma hidle (h true false out hout)

/-- The comma before a closing parenthesis is not. -/
theorem continues_idleComma (hidle : isIdleComma false text = true)
    (h : Contributes text piece rest) : Continues (',' :: text) piece rest :=
  fun out hout => sheds_idleComma hidle (h true false out hout)

/-- A closing bracket does not ask what precedes it. -/
theorem Sheds.of_close (hx : x = ')' ∨ x = ']') (h : Sheds false false (x :: rest) out) :
    Sheds opened asked (x :: rest) out := by
  obtain ⟨text', hundotted, hresidue⟩ := h
  cases hundotted with
  | @keep _ _ _ rest' hrest =>
    refine ⟨x :: rest', .keep hrest, ?_⟩
    rcases hx with rfl | rfl
    · rw [residue_paren (Or.inr rfl)] at hresidue ⊢
      exact hresidue
    · rw [residue_lasting (by decide)] at hresidue ⊢
      exact hresidue
  | drop => simp at hx

/-- Words, numerals and operators are left as they are. -/
theorem contributes_plain (hne : xs ≠ []) (hxs : ∀ x ∈ xs, IsPlain x) :
    Contributes (xs ++ rest) xs rest := by
  induction xs with
  | nil => exact absurd rfl hne
  | cons x xs ih =>
    obtain ⟨⟨hx, hplain⟩, htail⟩ := List.forall_mem_cons.1 hxs
    simp only [List.mem_cons, List.not_mem_nil, or_false, not_or] at hplain
    obtain ⟨hopen, -, hquestion⟩ := hplain
    intro opened asked out hout
    refine sheds_lasting hx ?_
    have hasked : (x == '?') = false := beq_eq_false_iff_ne.2 hquestion
    rw [hx.opensElement_eq hopen, hasked]
    cases xs with
    | nil => exact hout
    | cons y ys => exact ih (List.cons_ne_nil y ys) htail false false out hout

/-- Before what closes nothing is left. -/
theorem Skips.contributes_close (hx : x = ')' ∨ x = ']') (h : Skips text (x :: rest)) :
    Contributes text [] (x :: rest) :=
  fun _ _ _ hout => h.sheds fun _ => hout.of_close hx

/-! ## Elements of arrays -/

/-- Up to its rest the text leaves a piece, if it goes on where an element may begin. -/
def Fills (text piece rest : List Char) : Prop :=
  ∀ out, Sheds false false rest out → Sheds true false text (piece ++ out)

/-- An operand may be an element. -/
theorem Contributes.fills (h : Contributes text piece rest) : Fills text piece rest :=
  h true false

/-- After a hole a comma is left, and an element may begin. -/
theorem Fills.comma (hidle : isIdleComma true text = false) (h : Fills text piece rest) :
    Fills (',' :: text) (',' :: piece) rest :=
  fun out hout => sheds_comma hidle (h out hout)

/-- After an element a comma is left if another element or a hole follows. -/
theorem Fills.continues_comma (hidle : isIdleComma false text = false)
    (h : Fills text piece rest) : Continues (',' :: text) (',' :: piece) rest :=
  fun out hout => sheds_comma hidle (h out hout)

/-- A comma that says nothing may stand before an element. -/
theorem Fills.continues_idleComma (hidle : isIdleComma false text = true)
    (h : Fills text piece rest) : Continues (',' :: text) piece rest :=
  fun out hout => sheds_idleComma hidle (h out hout)

/-- Skipped blanks may stand before an element. -/
theorem Skips.fills {between : List Char} (h : Skips text between)
    (hbetween : Fills between piece rest) :
    Fills text piece rest :=
  fun out hout => h.sheds_false (hbetween out hout)

/-- The elements of an array between brackets. -/
theorem Fills.brackets (h : Fills text piece (']' :: rest)) :
    Contributes ('[' :: text) ('[' :: (piece ++ [']'])) rest := by
  intro opened asked out hout
  have hclose : Sheds false false (']' :: rest) (']' :: out) := sheds_lasting (by decide) hout
  have hinner : Sheds true false text (piece ++ ']' :: out) := h _ hclose
  have hassoc : '[' :: (piece ++ [']']) ++ out = '[' :: (piece ++ ']' :: out) := by simp
  rw [hassoc]
  exact sheds_lasting (by decide) hinner

end Text

end Estree
