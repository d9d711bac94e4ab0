import Estree.Proofs.Expr.Spans
import Estree.Proofs.Grammar.Scan

/-!
# What patterns match

A pattern is a text, a character, or a search for an expression. A search is for the first match
anywhere, and it counts only where it matches at the start. It may tell any places, as long as they
are between characters; it may match nothing at all, or further on.

> `Needle.size?`: how many bytes each of them matches at the start of a text, if it matches there at
> all; a match of no bytes is none.

> `Needle.size?_eq`: its pattern takes exactly these bytes.

A cursor knows pieces of text and a search tells bytes, so what has to be shown is that the piece
with so many bytes is the one between the places (`utf8Size_piece_ofSearch`). That a search tells
places between characters is all that is used of it.
-/

namespace Estree

/-- A search for the first match of an expression in a text. It tells between which bytes the match
stands, and matches stand between characters. -/
structure Search where
  find? : List Char → Option (Nat × Nat)
  isBoundary_of_find? : ∀ text start stop, find? text = some (start, stop) →
    start ≤ stop ∧ Text.IsBoundary text start ∧ Text.IsBoundary text stop

/-- The search for the first run of a class, wherever it is. -/
def Search.run (isMember : Char → Bool) : Search where
  find? text :=
    let before := text.takeWhile (!isMember ·)
    let rest := text.dropWhile (!isMember ·)
    if rest = [] then none
    else
      some (Text.utf8Size before, Text.utf8Size (before ++ rest.takeWhile isMember))
  isBoundary_of_find? text start stop h := by
    dsimp only at h
    split at h
    · cases h
    · cases h
      have hsplit := List.takeWhile_append_dropWhile (p := (!isMember ·)) (l := text)
      refine ⟨?_, ⟨_, _, hsplit.symm, rfl⟩,
        ⟨_, (text.dropWhile (!isMember ·)).dropWhile isMember, ?_, rfl⟩⟩
      · rw [Text.utf8Size_append]
        exact Nat.le_add_right _ _
      · rw [List.append_assoc, List.takeWhile_append_dropWhile, hsplit]

/-- The match of a search, if it is at the start of the text. -/
def Pattern.ofSearch (search : Search) : Pattern where
  length text :=
    match search.find? text with
    | some (0, stop) => ((Text.takeBytes? stop text).getD []).length
    | _ => 0

/-- What a cursor can be asked for. -/
inductive Needle where
  | text (s : String)
  | char (c : Char)
  | search (found : Search)

namespace Needle

/-- The pattern that looks for it. -/
def pattern : Needle → Pattern
  | text s => .text s
  | char c => .char c
  | search found => .ofSearch found

/-- How many bytes it matches at the start of a text. No match is empty. -/
def size? (needle : Needle) (input : List Char) : Option Nat :=
  match needle with
  | text s =>
    if s.toList ≠ [] ∧ s.toList.isPrefixOf input then some (Text.utf8Size s.toList) else none
  | char c => if input.head? = some c then some c.utf8Size else none
  | search found =>
    match found.find? input with
    | some (start, stop) => if start = 0 ∧ 0 < stop then some stop else none
    | none => none

end Needle

namespace Pattern

/-- A text matches itself where the input begins with it. -/
theorem piece_text (s : String) (input : List Char) :
    (text s).piece input = if s.toList.isPrefixOf input then s.toList else [] := by
  show input.take (if s.toList.isPrefixOf input then s.toList.length else 0) = _
  by_cases hprefix : s.toList.isPrefixOf input = true
  · obtain ⟨rest, hrest⟩ := List.isPrefixOf_iff_prefix.1 hprefix
    rw [if_pos hprefix, if_pos hprefix, ← hrest, List.take_left]
  · rw [if_neg hprefix, if_neg hprefix, List.take_zero]

/-- A character matches itself where it comes first. -/
theorem piece_char (c : Char) (input : List Char) :
    (char c).piece input = if input.head? = some c then [c] else [] := by
  rw [piece, length_char]
  by_cases hc : input.head? = some c
  · obtain ⟨rest, rfl⟩ := List.head?_eq_some_iff.1 hc
    rw [if_pos hc, if_pos hc]
    rfl
  · rw [if_neg hc, if_neg hc, List.take_zero]

variable {search : Search} {input : List Char}

theorem piece_ofSearch_of_none (h : search.find? input = none) :
    (ofSearch search).piece input = [] := by
  have hlength : (ofSearch search).length input = 0 := by simp only [ofSearch, h]
  rw [piece, hlength, List.take_zero]

/-- A match that does not begin at the start is not taken. -/
theorem piece_ofSearch_of_pos {start stop : Nat} (h : search.find? input = some (start, stop))
    (hstart : start ≠ 0) : (ofSearch search).piece input = [] := by
  obtain ⟨n, rfl⟩ := Nat.exists_eq_succ_of_ne_zero hstart
  have hlength : (ofSearch search).length input = 0 := by simp only [ofSearch, h]
  rw [piece, hlength, List.take_zero]

/-- A match at the start is taken. -/
theorem piece_ofSearch {found rest : List Char} (hinput : input = found ++ rest)
    (h : search.find? input = some (0, Text.utf8Size found)) :
    (ofSearch search).piece input = found := by
  have hlength : (ofSearch search).length input = found.length := by
    simp only [ofSearch, h]
    rw [hinput, Text.takeBytes?_append, Option.getD_some]
  rw [piece, hlength, hinput, List.take_left]

/-- A match at the start is taken with all its bytes. -/
theorem utf8Size_piece_ofSearch {stop : Nat} (h : search.find? input = some (0, stop)) :
    Text.utf8Size ((ofSearch search).piece input) = stop := by
  obtain ⟨-, -, found, rest, hinput, hstop⟩ := search.isBoundary_of_find? _ _ _ h
  rw [piece_ofSearch hinput (by rw [h, hstop]), hstop]

end Pattern

namespace Needle

/-- The pattern takes the bytes that are matched. -/
theorem size?_eq (needle : Needle) (input : List Char) :
    needle.size? input =
      if 0 < Text.utf8Size (needle.pattern.piece input) then
        some (Text.utf8Size (needle.pattern.piece input))
      else none := by
  cases needle with
  | text s =>
    rw [pattern, Pattern.piece_text, size?]
    by_cases hprefix : s.toList.isPrefixOf input = true
    · rw [if_pos hprefix]
      cases hs : s.toList with
      | nil => simp
      | cons c cs =>
        have hpos := c.utf8Size_pos
        rw [if_pos ⟨List.cons_ne_nil c cs, hs ▸ hprefix⟩,
          if_pos (by rw [Text.utf8Size_cons]; omega)]
    · rw [if_neg hprefix, if_neg fun h => hprefix h.2]
      rfl
  | char c =>
    rw [pattern, Pattern.piece_char, size?]
    by_cases hc : input.head? = some c
    · rw [if_pos hc, if_pos hc, Text.utf8Size_cons, Text.utf8Size_nil, Nat.add_zero,
        if_pos c.utf8Size_pos]
    · rw [if_neg hc, if_neg hc]
      rfl
  | search found =>
    rw [pattern, size?]
    cases hfind : found.find? input with
    | none =>
      rw [Pattern.piece_ofSearch_of_none hfind]
      rfl
    | some place =>
      obtain ⟨start, stop⟩ := place
      -- A match at the start ends between characters, so that taking its bytes takes all of it.
      show (if start = 0 ∧ 0 < stop then some stop else none) = _
      by_cases hstart : start = 0
      · subst hstart
        simp [Pattern.utf8Size_piece_ofSearch hfind]
      · rw [Pattern.piece_ofSearch_of_pos hfind hstart, if_neg fun h => hstart h.1]
        rfl

/-- Digits are matched at the start, but not further on. -/
example : (search (.run Char.isDigit)).size? "12a".toList = some 2 ∧
    (search (.run Char.isDigit)).size? "a12".toList = none := by
  decide

/-- The pattern is found where some bytes are matched. -/
theorem isSome_size? (needle : Needle) (input : List Char) :
    (needle.size? input).isSome = needle.pattern.isAtStart input := by
  rw [size?_eq, Pattern.isAtStart]
  cases hpiece : needle.pattern.piece input with
  | nil => rfl
  | cons c cs =>
    have hpos := c.utf8Size_pos
    rw [if_pos (by rw [Text.utf8Size_cons]; omega)]
    rfl

end Needle

end Estree
