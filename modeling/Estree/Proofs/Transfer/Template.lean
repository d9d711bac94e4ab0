import Estree.Proofs.Expr.Views
import Estree.Proofs.Grammar.Neighbours
import Estree.Proofs.Grammar.Spans

/-!
# Texts with words to be replaced

A template is a text of which some words may be replaced, all by the same group. It stands for two
texts, the one with the words and the one with groups in their places (`Template.old`,
`Template.new`).

A reading is transferred from the first text to the second one piece by piece, so a template can be
put together (`old_append`, `new_append`), and what is kept has the same text on both sides
(`old_keep`, `new_keep`). Which words are replaced is said by a span: `Template.IsAt` asks that all
of them stand there, in a text that begins at an offset. Two places of a text are apart, so before
the span and behind it nothing is replaced (`IsAt.new_eq_old_of_lt`).

The second half is about the two cursors that pass a template. Where the cursor in the new text
stands is told by the text alone: it has passed the same blanks if what follows them begins alike
(`Passes.eq_pastBlanks`, `Passes.eq_skipBlanks`).
-/

namespace Estree

open Text

/-- A character, or a word that may be replaced. -/
inductive Piece where
  | kept (x : Char)
  | word (text : List Char)

/-- A text of which some words may be replaced. -/
abbrev Template := List Piece

namespace Template

/-- The text with its words. -/
def old : Template → List Char
  | [] => []
  | .kept x :: m => x :: old m
  | .word text :: m => text ++ old m

/-- The text with a group in the place of each word. -/
def new (text : List Char) : Template → List Char
  | [] => []
  | .kept x :: m => x :: new text m
  | .word _ :: m => '(' :: (text ++ ')' :: new text m)

/-- A text of which nothing is replaced. -/
def keep (text : List Char) : Template :=
  text.map .kept

/-- Whether all words stand at the span, in a text that begins at an offset. -/
def IsAt (span? : Option Span) : Nat → Template → Prop
  | _, [] => True
  | start, .kept x :: m => IsAt span? (start + x.utf8Size) m
  | start, .word text :: m =>
    text ≠ [] ∧ ⟨start, start + utf8Size text⟩ ∈ span? ∧ IsAt span? (start + utf8Size text) m

variable {text : List Char} {span? : Option Span} {start : Nat} {m m' : Template}

/-- The words of two pieces stand one after the other. -/
theorem old_append : (m ++ m').old = m.old ++ m'.old := by
  induction m with
  | nil => rfl
  | cons piece m ih =>
    cases piece with
    | kept x => exact congrArg (x :: ·) ih
    | word word => exact (congrArg (word ++ ·) ih).trans (List.append_assoc ..).symm

/-- So do the pieces with groups in their places. -/
theorem new_append : (m ++ m').new text = m.new text ++ m'.new text := by
  induction m with
  | nil => rfl
  | cons piece m ih =>
    cases piece with
    | kept x => exact congrArg (x :: ·) ih
    | word word =>
      show '(' :: (text ++ ')' :: new text (m ++ m')) = '(' :: (text ++ ')' :: new text m) ++ _
      rw [ih, List.cons_append, List.append_assoc, List.cons_append]

/-- A kept piece is the old text, -/
theorem old_keep (text : List Char) : (keep text).old = text := by
  induction text with
  | nil => rfl
  | cons x xs ih => exact congrArg (x :: ·) ih

/-- and it is the new one. -/
theorem new_keep (text kept : List Char) : (keep kept).new text = kept := by
  induction kept with
  | nil => rfl
  | cons x xs ih => exact congrArg (x :: ·) ih

/-- The words of two pieces stand at the span if those of each piece do. -/
theorem isAt_append_iff :
    IsAt span? start (m ++ m') ↔
      IsAt span? start m ∧ IsAt span? (start + utf8Size m.old) m' := by
  induction m generalizing start with
  | nil => simp [IsAt, old]
  | cons piece m ih =>
    cases piece with
    | kept x =>
      show IsAt span? (start + x.utf8Size) (m ++ m') ↔
        IsAt span? (start + x.utf8Size) m ∧ IsAt span? (start + utf8Size (x :: old m)) m'
      rw [ih, utf8Size_cons, Nat.add_assoc]
    | word word =>
      show _ ∧ _ ∧ IsAt span? (start + utf8Size word) (m ++ m') ↔
        (_ ∧ _ ∧ IsAt span? (start + utf8Size word) m) ∧
          IsAt span? (start + utf8Size (word ++ old m)) m'
      rw [ih, utf8Size_append, Nat.add_assoc, and_assoc, and_assoc]

/-- A kept piece has no words to be replaced. -/
theorem isAt_keep (span? : Option Span) (start : Nat) (text : List Char) :
    IsAt span? start (keep text) := by
  induction text generalizing start with
  | nil => trivial
  | cons x xs ih => exact ih _

/-- Where no word may be replaced, the texts are the same. -/
theorem IsAt.new_eq_old (h : IsAt none start m) : m.new text = m.old := by
  induction m generalizing start with
  | nil => rfl
  | cons piece m ih =>
    cases piece with
    | kept x => exact congrArg (x :: ·) (ih h)
    | word word => cases h.2.1

/-- A template without words is one for every span. -/
theorem IsAt.of_none (h : IsAt none start m) : IsAt span? start m := by
  induction m generalizing start with
  | nil => trivial
  | cons piece m ih =>
    cases piece with
    | kept x => exact ih h
    | word word => cases h.2.1

/-- Behind the span no word is replaced. -/
theorem IsAt.new_eq_old_of_lt {span : Span} (h : IsAt (some span) start m)
    (hstart : span.start < start) (text : List Char) : m.new text = m.old := by
  induction m generalizing start with
  | nil => rfl
  | cons piece m ih =>
    cases piece with
    | kept x => exact congrArg (x :: ·) (ih h (by omega))
    | word word =>
      have hspan : span = ⟨start, start + utf8Size word⟩ := Option.some.inj h.2.1
      rw [hspan] at hstart
      exact absurd hstart (Nat.lt_irrefl _)

/-- At most one word is replaced, the one that stands at the span. -/
theorem IsAt.word_or {span : Span} (h : IsAt (some span) start m) :
    (∀ text, m.new text = m.old) ∨ ∃ before word after, start + utf8Size before = span.start ∧
      span.start + utf8Size word = span.stop ∧ m.old = before ++ (word ++ after) ∧
      ∀ text, m.new text = before ++ '(' :: (text ++ ')' :: after) := by
  induction m generalizing start with
  | nil => exact Or.inl fun _ => rfl
  | cons piece m ih =>
    cases piece with
    | kept x =>
      rcases ih h with hnone | ⟨before, word, after, hstart, hstop, hold, hnew⟩
      · exact Or.inl fun text => congrArg (x :: ·) (hnone text)
      · refine Or.inr ⟨x :: before, word, after, ?_, hstop, congrArg (x :: ·) hold,
          fun text => congrArg (x :: ·) (hnew text)⟩
        rw [utf8Size_cons, ← Nat.add_assoc, hstart]
    | word word =>
      obtain ⟨hne, hspan, hrest⟩ := h
      obtain rfl : span = ⟨start, start + utf8Size word⟩ := Option.some.inj hspan
      have hlt : start < start + utf8Size word := by
        obtain ⟨x, xs, rfl⟩ := List.exists_cons_of_ne_nil hne
        have hpos := x.utf8Size_pos
        rw [utf8Size_cons]
        omega
      refine Or.inr ⟨[], word, old m, rfl, rfl, rfl, fun text => ?_⟩
      exact congrArg (fun after => '(' :: (text ++ ')' :: after)) (hrest.new_eq_old_of_lt hlt text)

/-- The new text begins as the old one, or with a group. -/
theorem beside_append {old' new' : List Char} (h : Beside old' new') :
    Beside (m.old ++ old') (m.new text ++ new') := by
  cases m with
  | nil => exact h
  | cons piece m =>
    cases piece with
    | kept x => exact fun y hy => Or.inl hy
    | word word =>
      intro y hy
      obtain rfl := Option.some.inj hy
      exact Or.inr (by decide)

end Template

namespace Cursor

variable {c c' c₁ d d' d₁ : Cursor} {piece piece' : List Char}

/-! ## Pieces that are passed -/

/-- The blanks at the cursor. -/
def blanks (c : Cursor) : List Char :=
  c.rest.takeWhile isBlank

/-- The blanks at a cursor are blanks. -/
theorem isBlank_of_mem_blanks : ∀ x ∈ c.blanks, isBlank x = true :=
  fun x hx => List.all_eq_true.1 List.all_takeWhile x hx

/-- Past its blanks the cursor has passed them. -/
theorem passes_blanks (c : Cursor) : c.Passes c.blanks c.pastBlanks where
  rest_eq := List.takeWhile_append_dropWhile.symm
  eq_skip := c.skipWhile_eq_skip isBlank

/-- What is passed in two pieces is passed piece by piece. -/
theorem Passes.split (h : c.Passes (piece ++ piece') c') :
    c.Passes piece (c.skip piece.length) ∧ (c.skip piece.length).Passes piece' c' := by
  have hrest : c.rest = piece ++ (piece' ++ c'.rest) := by
    rw [h.rest_eq, List.append_assoc]
  refine ⟨passes_skip hrest, skip_length_rest hrest, ?_⟩
  rw [h.eq_skip, skip_skip, List.length_append]

/-- The first character of a piece stands at the cursor. -/
theorem Passes.head?_rest {x : Char} (h : c.Passes (x :: piece) c') : c.rest.head? = some x := by
  rw [h.rest_eq]
  rfl

/-- A piece is passed character by character. -/
theorem Passes.split_cons {x : Char} (h : c.Passes (x :: piece) c') :
    c.Passes [x] (c.skip 1) ∧ (c.skip 1).Passes piece c' :=
  @Passes.split c c' [x] piece h

/-- A text in two pieces is passed up to its end. -/
theorem exists_passes_ofList (piece piece' : List Char) : ∃ c₁ c',
    (ofString (String.ofList (piece ++ piece'))).Passes piece c₁ ∧ c₁.Passes piece' c' ∧
      c'.rest = [] := by
  have hrest : (ofString (String.ofList (piece ++ piece'))).rest = piece ++ piece' :=
    String.toList_ofList
  have hrest₁ := (skip_length_rest hrest).trans piece'.append_nil.symm
  exact ⟨_, _, passes_skip hrest, passes_skip hrest₁, skip_length_rest hrest₁⟩

/-- What lies between two places of a text is passed. -/
theorem Reaches.exists_passes (h : c.Reaches c') : ∃ piece, c.Passes piece c' := by
  obtain ⟨n, rfl⟩ := h
  refine ⟨c.rest.take n, (List.take_append_drop n c.rest).symm, ?_⟩
  rcases Nat.le_total n c.rest.length with hle | hle
  · rw [List.length_take, Nat.min_eq_left hle]
  · rw [List.take_of_length_le hle, skip, skip, List.take_of_length_le hle, List.take_length,
      List.drop_of_length_le hle, List.drop_length]

/-- Nothing is passed on the spot. -/
theorem Passes.eq_of_nil (h : c.Passes [] c') : c' = c :=
  h.eq_skip.trans c.skip_zero

/-- A piece may be written in another way. -/
theorem Passes.of_eq (h : c.Passes piece c') (heq : piece = piece') : c.Passes piece' c' :=
  heq ▸ h

/-- The same run of a class is passed where another text begins as the one behind it. -/
theorem Passes.eq_skipWhile {p : Char → Bool} (h : d.Passes (c.rest.takeWhile p) d₁)
    (hbeside : Beside (c.skipWhile p).rest d₁.rest)
    (hdelimiters : ∀ x ∈ delimiters, p x = false) :
    d₁ = d.skipWhile p := by
  have hhead : ∀ x ∈ d₁.rest.head?, p x = false :=
    hbeside.forall_head? (fun x hx => not_of_mem_head?_dropWhile hx) hdelimiters
  have htake : d.rest.takeWhile p = c.rest.takeWhile p := by
    rw [h.rest_eq]
    exact takeWhile_append (fun x hx => List.all_eq_true.1 List.all_takeWhile x hx) hhead
  rw [h.eq_skip, ← htake, skipWhile_eq_skip]

/-- The same blanks lead to the next solid character if the rest begins alike. -/
theorem Passes.eq_pastBlanks (h : d.Passes c.blanks d₁)
    (hbeside : Beside c.pastBlanks.rest d₁.rest) : d₁ = d.pastBlanks :=
  h.eq_skipWhile hbeside (by decide)

/-- The blanks at the cursor that are on its line. -/
def inlineBlanks (c : Cursor) : List Char :=
  c.rest.takeWhile isInlineBlank

/-- The blanks of the line are blanks. -/
theorem isBlank_of_mem_inlineBlanks : ∀ x ∈ c.inlineBlanks, isBlank x = true :=
  fun x hx => isBlank_of_isInlineBlank (List.all_eq_true.1 List.all_takeWhile x hx)

/-- Past the blanks of its line the cursor has passed them. -/
theorem passes_inlineBlanks (c : Cursor) : c.Passes c.inlineBlanks (c.skipBlanks false) where
  rest_eq := List.takeWhile_append_dropWhile.symm
  eq_skip := c.skipWhile_eq_skip isInlineBlank

/-- The same blanks lead to the end of the line's blanks if the rest begins alike. -/
theorem Passes.eq_skipBlanks (h : d.Passes c.inlineBlanks d₁)
    (hbeside : Beside (c.skipBlanks false).rest d₁.rest) : d₁ = d.skipBlanks false :=
  h.eq_skipWhile hbeside (by decide)

end Cursor

end Estree
