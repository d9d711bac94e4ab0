import Estree.Proofs.Text.Parentheses
import Estree.Proofs.Text.Residue
import Estree.Proofs.Transfer.Template

/-!
# Parentheses in what is read

Every production passes text in which the parentheses match (`Derives.parenthesized`); only
arguments begin behind a parenthesis, and pass the one that closes it. So no text is accepted in
which they do not match (`Expr.matched_of_parseWithin_eq_ok`).

> `Cursor.Matches`: the text between two cursors has matching parentheses.
> `Cursor.Leaves`: it closes the parenthesis that is open at the first cursor, and matches apart
> from that.

All that is passed without being read has no parentheses at all: blanks, operators, words, numbers
and the signs of accesses. So the induction has only to chain the pieces (`Matches.trans`), and to
put a parenthesis around what `Leaves` says of arguments and of groups (`Leaves.matches`).
-/

namespace Estree

open Text

/-- Lasting characters are no parentheses. -/
theorem Text.IsLasting.ne_paren {x : Char} (h : IsLasting x) : x ≠ '(' ∧ x ≠ ')' := by
  constructor <;>
  · rintro rfl
    exact h.2 (by decide)

namespace Cursor

variable {c c' c₁ c₂ : Cursor} {x : Char} {piece : List Char}

/-- Matching text lies between two cursors. -/
def Matches (c c' : Cursor) : Prop :=
  ∃ piece, c.Passes piece c' ∧ Matched piece

/-- On the spot nothing is left open. -/
theorem Matches.refl (c : Cursor) : c.Matches c :=
  ⟨[], .refl c, matched_nil⟩

/-- Matching texts one after the other. -/
theorem Matches.trans (h : c.Matches c₁) (h' : c₁.Matches c₂) : c.Matches c₂ := by
  obtain ⟨piece, hpass, hpiece⟩ := h
  obtain ⟨piece', hpass', hpiece'⟩ := h'
  exact ⟨_, hpass.trans hpass', hpiece.append hpiece'⟩

/-- A text without parentheses matches. -/
theorem Passes.matches (h : c.Passes piece c') (hpiece : ∀ x ∈ piece, x ≠ '(' ∧ x ≠ ')') :
    c.Matches c' :=
  ⟨piece, h, matched_of_forall hpiece⟩

/-- Blanks have no parentheses. -/
theorem matches_pastBlanks (c : Cursor) : c.Matches c.pastBlanks :=
  ⟨_, c.passes_blanks, matched_of_blanks c.isBlank_of_mem_blanks⟩

/-- Nor have the blanks of a line. -/
theorem matches_inlineBlanks (c : Cursor) : c.Matches (c.skipBlanks false) :=
  ⟨_, c.passes_inlineBlanks, matched_of_blanks c.isBlank_of_mem_inlineBlanks⟩

/-- A character that is no parenthesis may be passed. -/
theorem matches_char (h : c.rest.head? = some x) (hopen : x ≠ '(') (hclose : x ≠ ')') :
    c.Matches (c.skip 1) :=
  (passes_skip (rest_eq_cons_skip h)).matches fun y hy => by
    rw [List.mem_singleton.1 hy]
    exact ⟨hopen, hclose⟩

/-- A symbol that is no parenthesis. -/
theorem matches_text {text : String} (h : ∃ rest, c.rest = text.toList ++ rest)
    (htext : ∀ x ∈ text.toList, IsLasting x) : c.Matches (c.skip text.length) := by
  obtain ⟨rest, hrest⟩ := h
  rw [← String.length_toList]
  exact (passes_skip hrest).matches fun x hx => (htext x hx).ne_paren

/-- The sign of an access has no parentheses. -/
theorem matches_access {access : Access} (h : Token.access? c.rest = some access) :
    c.Matches (c.skip access.text.length) :=
  matches_text (Token.access?_eq_some h) (isLasting_access access)

/-- Nor has an infix operator. -/
theorem matches_infixOperator {operator : InfixOperator}
    (h : Token.infixOperator? c.rest = some operator) : c.Matches (c.skip operator.text.length) :=
  matches_text (Token.infixOperator?_eq_some h) (isLasting_infixOperator operator)

/-- Nor has a unary operator. -/
theorem matches_unaryOperator {operator : UnaryOperator}
    (h : Token.unaryOperator? c.rest = some operator) : c.Matches (c.skip operator.text.length) :=
  matches_text (Token.unaryOperator?_eq_some h) (isLasting_unaryOperator operator)

/-- Nor has an update. -/
theorem matches_updateOperator {operator : UpdateOperator}
    (h : Token.updateOperator? c.rest = some operator) : c.Matches (c.skip operator.text.length) :=
  matches_text (Token.updateOperator?_eq_some h) (by cases operator <;> decide)

/-- Nor has a word. -/
theorem matches_word {word : List Char} (h : leadingWord c.rest = word) :
    c.Matches (c.skip word.length) := by
  subst h
  exact c.passes_leadingWord.matches fun x hx =>
    (isPlain_of_isIdentifierPart (isIdentifierPart_of_mem_leadingWord hx)).1.ne_paren

/-- Nor has the name of a property. -/
theorem matches_propertyName {e : Expr} (h : Leaf.propertyName c = .ok e c') : c.Matches c' := by
  obtain ⟨-, -, rfl⟩ := Leaf.propertyName_eq_ok.1 h
  exact matches_word rfl

/-- Nor has a number. -/
theorem matches_number {e : Expr} (hstart : Pattern.numberStart.isAtStart c.rest = true)
    (h : Leaf.number c = .ok e c') : c.Matches c' := by
  obtain ⟨piece, _, hnumeral, -, hpass, -⟩ := Leaf.number_eq_ok hstart h
  exact hpass.matches fun x hx => (isPlain_of_mem_numeral hnumeral hx).1.ne_paren

/-- A name behind blanks. -/
theorem matches_name {e : Expr} (h : Leaf.propertyName c.pastBlanks = .ok e c') : c.Matches c' :=
  c.matches_pastBlanks.trans (matches_propertyName h)

/-- The beginning of an access behind blanks. -/
theorem matches_nextAccess {access : Access}
    (h : Token.access? c.pastBlanks.rest = some access) :
    c.Matches (c.pastBlanks.skip access.text.length) :=
  c.matches_pastBlanks.trans (matches_access h)

/-- Between the cursors the parenthesis is closed that is open at the first one, and apart from it
the text matches. -/
def Leaves (c c' : Cursor) : Prop :=
  ∃ c₁, c.Matches c₁ ∧ c₁.rest.head? = some ')' ∧ (c₁.skip 1).Matches c'

/-- A parenthesis that closes may come behind matching text. -/
theorem Matches.leaves (h : c.Matches c₁) (hclose : c₁.rest.head? = some ')') :
    c.Leaves (c₁.skip 1) :=
  ⟨c₁, h, hclose, .refl _⟩

/-- Matching text may come behind the parenthesis. -/
theorem Leaves.trans (h : c.Leaves c₁) (h' : c₁.Matches c') : c.Leaves c' := by
  obtain ⟨c₂, hc₂, hclose, hrest⟩ := h
  exact ⟨c₂, hc₂, hclose, hrest.trans h'⟩

/-- With the parenthesis that opens, all of it matches. -/
theorem Leaves.matches (h : (c.skip 1).Leaves c') (hopen : c.rest.head? = some '(') :
    c.Matches c' := by
  obtain ⟨c₁, ⟨piece, hpass, hpiece⟩, hclose, hrest⟩ := h
  have hfirst := passes_skip (rest_eq_cons_skip hopen)
  have hlast := passes_skip (rest_eq_cons_skip hclose)
  exact Matches.trans ⟨_, hfirst.trans (hpass.trans hlast), hpiece.group⟩ hrest

end Cursor

namespace Grammar

open Cursor

/-- The parentheses of what a production passes. -/
def Parenthesized : Production → Cursor → Cursor → Prop
  | .arguments, c, c' | .call .., c, c' => c.Leaves c'
  | _, c, c' => c.Matches c'

/-- Whatever is read, the parentheses of its text match. -/
theorem Derives.parenthesized {depth : Nat} {p : Production} {c c' : Cursor} {v : p.Yield}
    (h : Derives depth p c v c') : Parenthesized p c c' := by
  induction h <;>
    grind [Parenthesized, Matches.trans, Matches.refl, matches_pastBlanks, matches_inlineBlanks,
      matches_char, matches_access, matches_infixOperator, matches_unaryOperator,
      matches_updateOperator, matches_word, → matches_name, → matches_nextAccess, → matches_number,
      Matches.leaves, Leaves.trans, Leaves.matches]

/-- What is read to the end of a text is all of it, with its parentheses. -/
theorem Derives.matched {depth : Nat} {c c' : Cursor} {e? : Option Expr}
    (h : Derives depth (.sequence false) c e? c') (hend : c'.pastBlanks.rest = []) :
    Matched c.rest := by
  have hmatches : c.Matches c' := h.parenthesized
  obtain ⟨piece, hpass, hpiece⟩ := hmatches.trans c'.matches_pastBlanks
  have hrest := hpass.rest_eq
  rw [hend, List.append_nil] at hrest
  rwa [hrest]

end Grammar

/-- No text is accepted unless its parentheses match. -/
theorem Expr.matched_of_parseWithin_eq_ok {limits : Limits} {source : String} {e : Expr}
    (h : parseWithin limits source = .ok e) : Matched source.toList := by
  obtain ⟨c', hderives, hend⟩ := readsWithin_of_parseWithin_eq_ok h
  exact hderives.matched hend

end Estree
