import Estree.Proofs.Grammar.Derivation
import Estree.Proofs.Grammar.Neighbours

/-!
# What an operand begins with

Whatever is read begins with one of a few characters (`Derives.starts`). So where an operand stands
behind an operator, its first character does not go on with the operator, and where one stands
behind a question mark, this is the mark of a conditional.

> `Text.StartsOperand`: a word, a number, a bracket that opens, a sign, `!` or `~`.
> `StartsOperand.not_mem_infixTails`: none of these goes on with the spelling of an infix operator.
> `infixOperator?_question`, `access?_question`: behind `?` none of them makes an operator of it, or
> an access.

That a question mark may be the first half of an access is the one place where blanks count: `a?.5`
is a conditional, as a digit follows the point.
-/

namespace Estree

open Text

namespace Text

variable {text : List Char}

/-- Whether an operand may begin here. -/
def StartsOperand (text : List Char) : Prop :=
  ∃ x, text.head? = some x ∧ (isIdentifierStart x = true ∨ x ∈ ['(', '[', '+', '-', '!', '~'] ∨
    Pattern.numberStart.isAtStart text = true)

/-- Something stands where an operand begins. -/
theorem StartsOperand.ne_nil (h : StartsOperand text) : text ≠ [] := by
  rintro rfl
  obtain ⟨x, hx, -⟩ := h
  cases hx

/-- None of these characters begins an operand. -/
theorem StartsOperand.not_mem (h : StartsOperand text) {others : List Char}
    (hothers : others.all (fun x => !(x ∈ ['(', '[', '+', '-', '!', '~']) && !x.isDigit &&
      x != '.' && !isIdentifierStart x) = true) : ∀ x ∈ text.head?, x ∉ others := by
  obtain ⟨x, hx, hkind⟩ := h
  intro y hy hmem
  obtain rfl := Option.some.inj (hx.symm.trans hy)
  have hother := List.all_eq_true.1 hothers x hmem
  simp only [Bool.and_eq_true, Bool.not_eq_true', decide_eq_false_iff_not, bne_iff_ne, ne_eq]
    at hother
  obtain ⟨⟨⟨hsymbol, hdigit⟩, hpoint⟩, hstart⟩ := hother
  rcases hkind with hword | hmem | hnumber
  · rw [hword] at hstart
    cases hstart
  · exact hsymbol hmem
  · obtain ⟨z, hz, hkind⟩ := head?_of_numberStart hnumber
    obtain rfl := Option.some.inj (hx.symm.trans hz)
    rcases hkind with hd | rfl
    · rw [hd] at hdigit
      cases hdigit
    · exact hpoint rfl

/-- A text begins with a blank, or where its blanks end. -/
theorem head?_isBlank_or (text : List Char) :
    (∃ x rest, text = x :: rest ∧ isBlank x = true) ∨ text.dropWhile isBlank = text := by
  cases text with
  | nil => exact Or.inr rfl
  | cons x rest =>
    by_cases hx : isBlank x = true
    · exact Or.inl ⟨x, rest, rfl, hx⟩
    · exact Or.inr (List.dropWhile_cons_of_neg hx)

/-- With blanks before it or without, an operand does not go on with an infix operator. -/
theorem StartsOperand.not_mem_infixTails (h : StartsOperand (text.dropWhile isBlank)) :
    ∀ x ∈ text.head?, x ∉ Pattern.infixTails := by
  rcases head?_isBlank_or text with ⟨x, rest, rfl, hx⟩ | hsame
  · intro y hy hmem
    obtain rfl := Option.some.inj hy
    have hall : Pattern.infixTails.all (fun x => !isBlank x) = true := by decide
    have hblank := List.all_eq_true.1 hall x hmem
    rw [hx] at hblank
    cases hblank
  · rw [hsame] at h
    exact h.not_mem (by decide)

end Text

namespace Token

open Text

variable {text : List Char}

/-- Before an operand a question mark is no part of an infix operator. -/
theorem infixOperator?_question (h : StartsOperand (text.dropWhile isBlank)) :
    infixOperator? ('?' :: text) = none := by
  cases hinfixed : infixOperator? ('?' :: text) with
  | none => rfl
  | some operator =>
    obtain ⟨rest, hrest⟩ := infixOperator?_eq_some hinfixed
    obtain rfl : operator = .logical .nullish := by
      rcases operator with operator | operator <;> cases operator <;>
        first | rfl | cases (List.cons.inj hrest).1
    obtain rfl : text = '?' :: rest := (List.cons.inj hrest).2
    exact absurd (by decide) (h.not_mem_infixTails '?' rfl)

/-- Before an operand a question mark is no part of an access. -/
theorem access?_question (h : StartsOperand (text.dropWhile isBlank)) :
    access? ('?' :: text) = none := by
  cases haccess : access? ('?' :: text) with
  | none => rfl
  | some access =>
    obtain ⟨rest, hrest⟩ := access?_eq_some haccess
    have hpoint : ∃ rest, text = '.' :: rest := by
      rcases access with ⟨_ | _, _ | _⟩
      · cases (List.cons.inj hrest).1
      · cases (List.cons.inj hrest).1
      · exact ⟨_, (List.cons.inj hrest).2⟩
      · exact ⟨_, (List.cons.inj hrest).2⟩
    obtain ⟨rest, rfl⟩ := hpoint
    -- Of operands only a number begins with a point, and `?.` before a digit is no access.
    obtain ⟨x, hx, hkind⟩ := h
    obtain rfl := Option.some.inj hx
    have hnumber : Pattern.numberStart.isAtStart ('.' :: rest) = true := by
      rcases hkind with hword | hmem | hnumber
      · exact absurd hword (by decide)
      · exact absurd hmem (by decide)
      · exact hnumber
    obtain ⟨d, hd, hdigit⟩ := numberStart_point.1 hnumber
    obtain ⟨ds, rfl⟩ := List.head?_eq_some_iff.1 hd
    have hfraction : Pattern.questionBeforeFraction.isAtStart ('?' :: '.' :: d :: ds) = true := by
      simp [Pattern.isAtStart, Pattern.piece, Pattern.questionBeforeFraction, Pattern.followedBy,
        Pattern.text, Pattern.one, hdigit]
    rw [access?, if_pos hfraction] at haccess
    cases haccess

end Token

namespace Grammar

/-- Where what is read begins. -/
def Starts : (p : Production) → Cursor → p.Yield → Prop
  | .expression, c, some _ | .conditional, c, some _ | .operands _, c, some _ | .climb _, c, some _
  | .unary, c, some _ | .unaryForm, c, some _ | .token, c, some _ =>
    StartsOperand c.pastBlanks.rest
  | .primary, c, some _ | .primaryForm, c, some _ => StartsOperand c.rest
  | _, _, _ => True

/-- A bracket or a sign begins an operand. -/
theorem startsOperand_char {text : List Char} {x : Char} (h : text.head? = some x)
    (hx : x ∈ ['(', '[', '+', '-', '!', '~']) : StartsOperand text :=
  ⟨x, h, Or.inr (Or.inl hx)⟩

/-- A word begins an operand. -/
theorem startsOperand_word {text : List Char} (h : leadingWord text ≠ []) : StartsOperand text := by
  obtain ⟨x, hx, hstart⟩ := leadingWord_ne_nil_iff.1 h
  exact ⟨x, hx, Or.inl hstart⟩

/-- A unary operator begins an operand. -/
theorem startsOperand_unaryOperator {text : List Char} {operator : UnaryOperator}
    (h : Token.unaryOperator? text = some operator) : StartsOperand text := by
  obtain ⟨rest, rfl⟩ := Token.unaryOperator?_eq_some h
  cases operator with
  | minus | plus | not | bitNot => exact startsOperand_char rfl (by decide)
  | typeof | void | delete => exact ⟨_, rfl, Or.inl (by decide)⟩

/-- Whatever is read begins like an operand. -/
theorem Derives.starts {depth : Nat} {p : Production} {c c' : Cursor} {v : p.Yield}
    (h : Derives depth p c v c') : Starts p c v := by
  induction h with
  | @expression _ c c' e? _ ih =>
    cases e? with
    | none => trivial
    | some e => exact ih
  | @unconditional _ c c' operands? _ _ ih =>
    cases operands? with
    | none => trivial
    | some operands => exact ih
  | conditional _ _ _ _ _ ih => exact ih
  | @operands _ c c' least climbed? _ ih =>
    cases climbed? with
    | none => trivial
    | some climbed => exact ih
  | @climb _ c _ _ _ _ _ _ _ ih =>
    have hstarts : StartsOperand c.pastBlanks.pastBlanks.rest := ih
    rwa [c.pastBlanks_pastBlanks] at hstarts
  | @unary _ c c' e? _ ih =>
    cases e? with
    | none => trivial
    | some e => exact ih
  | unaryOperator hop => exact startsOperand_unaryOperator hop
  | @noUnaryOperator _ c c' e? _ _ ih =>
    cases e? with
    | none => trivial
    | some e =>
      have hstarts : StartsOperand c.pastBlanks.pastBlanks.rest := ih
      rwa [c.pastBlanks_pastBlanks] at hstarts
  | token _ _ _ ih => exact ih
  | trailingUpdate _ _ _ _ ih => exact ih
  | @primary _ c c' e? _ ih =>
    cases e? with
    | none => trivial
    | some e => exact ih
  | @group _ c c' e? hopen _ _ =>
    cases e? with
    | none => trivial
    | some e => exact startsOperand_char hopen (by decide)
  | leadingUpdate hop =>
    rcases Token.head?_of_updateOperator? hop with hplus | hminus
    · exact startsOperand_char hplus (by decide)
    · exact startsOperand_char hminus (by decide)
  | new hword => exact startsOperand_word (by rw [hword]; decide)
  | word hword hne => exact startsOperand_word (by rwa [hword])
  | number hstart _ =>
    obtain ⟨x, hx, -⟩ := head?_of_numberStart hstart
    exact ⟨x, hx, Or.inr (Or.inr hstart)⟩
  | arrayLiteral hopen => exact startsOperand_char hopen (by decide)
  | _ => trivial

end Grammar

end Estree
