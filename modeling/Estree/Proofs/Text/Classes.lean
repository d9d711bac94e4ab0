import Estree.Text.Blank
import Estree.Text.Identifier

/-!
# Classes of characters

The classes that tell tokens apart exclude each other: digits, blanks and the characters of
operators and brackets begin no identifier, and the latter are in none. So at the start of a token
one look at the first character decides what it can be, and lemmas about other tokens are settled by
it (`head?_ne_of_leadingWord`).

A text has a leading word exactly if its first character may begin an identifier
(`leadingWord_ne_nil_iff`).
-/

namespace Estree.Text

variable {x : Char} {text : List Char}

/-- Whether all characters of a text have a property is found by looking at these, and not at all
characters that there are. -/
instance decidableForallMem (p : Char → Prop) [DecidablePred p] (text : List Char) :
    Decidable (∀ x ∈ text, p x) :=
  List.decidableBAll p text

/-- Digits begin no identifier. -/
theorem isIdentifierStart_of_isDigit (h : x.isDigit = true) : isIdentifierStart x = false := by
  have hcode : 48 ≤ x.toNat ∧ x.toNat ≤ 57 := Char.isDigit_iff_toNat.1 h
  obtain ⟨n, hn, rfl⟩ : ∃ n, n ∈ List.range' 48 10 ∧ Char.ofNat n = x :=
    ⟨x.toNat, by rw [List.mem_range'_1]; omega, Char.ofNat_toNat x⟩
  have hdigits : ∀ n ∈ List.range' 48 10, isIdentifierStart (Char.ofNat n) = false := by
    decide
  exact hdigits n hn

/-- No blank begins an identifier. -/
theorem isIdentifierStart_of_isBlank (h : isBlank x = true) : isIdentifierStart x = false := by
  obtain ⟨range, hrange, hx⟩ := CodeRanges.contains_iff.1 h
  have hblanks : ∀ range ∈ whiteSpace, ∀ n ∈ List.range' range.1 (range.2 + 1 - range.1),
      isIdentifierStart (Char.ofNat n) = false := by
    decide +kernel
  have hn := hblanks range hrange x.toNat (by rw [List.mem_range'_1]; omega)
  rwa [Char.ofNat_toNat] at hn

/-- Digits are in no list of other characters. -/
theorem not_mem_of_isDigit {others : List Char} (h : x.isDigit = true)
    (hothers : others.any Char.isDigit = false) : x ∉ others := by
  intro hx
  rw [List.any_eq_true.2 ⟨x, hx, h⟩] at hothers
  cases hothers

/-- A digit is no blank. -/
theorem isBlank_of_isDigit (h : x.isDigit = true) : isBlank x = false := by
  have hcode : 48 ≤ x.toNat ∧ x.toNat ≤ 57 := Char.isDigit_iff_toNat.1 h
  refine Bool.eq_false_iff.2 fun hblank => ?_
  obtain ⟨range, hrange, hx⟩ := CodeRanges.contains_iff.1 hblank
  simp only [whiteSpace, List.mem_cons, List.not_mem_nil, or_false] at hrange
  rcases hrange with rfl | rfl | rfl | rfl | rfl | rfl | rfl | rfl | rfl | rfl <;>
    (dsimp only at hx; omega)

/-- The characters of operators, brackets and separators. -/
def symbols : List Char :=
  ['(', ')', '[', ']', ',', '.', ':', '?', '!', '~', '+', '-', '*', '/', '%', '<', '>', '=', '&',
   '|', '^', ' ']

/-- They are in no word. -/
theorem isIdentifierPart_of_mem_symbols (h : x ∈ symbols) : isIdentifierPart x = false := by
  have hall : symbols.all (fun x => !isIdentifierPart x) = true := by decide
  simpa using List.all_eq_true.1 hall x h

/-- Nor does a symbol begin an identifier. -/
theorem isIdentifierStart_of_mem_symbols (h : x ∈ symbols) : isIdentifierStart x = false := by
  refine Bool.eq_false_iff.2 fun hstart => ?_
  have hpart := isIdentifierPart_of_mem_symbols h
  rw [isIdentifierPart_of_start hstart] at hpart
  cases hpart

theorem not_mem_symbols (h : isIdentifierStart x = true) : x ∉ symbols := by
  intro hx
  rw [isIdentifierStart_of_mem_symbols hx] at h
  cases h

/-- A word is found where an identifier may begin. -/
theorem leadingWord_ne_nil_iff :
    leadingWord text ≠ [] ↔ ∃ x, text.head? = some x ∧ isIdentifierStart x = true := by
  cases text with
  | nil => simp [leadingWord]
  | cons y ys => by_cases hy : isIdentifierStart y = true <;> simp [leadingWord, hy]

/-- Where a word stands, nothing stands that begins no word. -/
theorem head?_ne_of_leadingWord {word : List Char} (h : leadingWord text = word) (hne : word ≠ [])
    {y : Char} (hy : isIdentifierStart y = false) : text.head? ≠ some y := by
  obtain ⟨z, hz, hstart⟩ := leadingWord_ne_nil_iff.1 (h ▸ hne)
  intro hhead
  rw [hz] at hhead
  cases hhead
  rw [hy] at hstart
  cases hstart

/-- A text that begins with no such character has no leading word. -/
theorem leadingWord_eq_nil (h : ∀ x ∈ text.head?, isIdentifierStart x = false) :
    leadingWord text = [] := by
  cases text with
  | nil => rfl
  | cons y ys => rw [leadingWord, if_neg (Bool.eq_false_iff.1 (h y rfl))]

end Estree.Text
