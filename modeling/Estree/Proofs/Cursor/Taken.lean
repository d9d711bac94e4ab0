import Estree.Proofs.Grammar.Spans
import Estree.Proofs.Text.Slices

/-!
# What a cursor takes

Whatever is taken at a cursor is a piece of the rest: the cursor that is left passes it, and it is
not empty (`Took`). Seen from the source it is the text between the two positions
(`IsIn.slice?_eq`), which is how a caller that knows only positions and the source can tell.

For classes of characters and for words there is more to say: the piece is the longest one that they
allow (`IsLongest`). Two facts are behind it. What is taken is allowed, and nothing that is allowed
at the same place is longer, because it begins with the same characters and the first one that is
not taken is in the way (`ConsistsOf.utf8Size_le`, `IsWord.utf8Size_le`).
-/

namespace Estree

/-! ## Pieces between cursors -/

namespace Cursor

variable {source : String} {c c' : Cursor} {piece : List Char}

/-- What is passed is the piece of the source between the two positions. -/
theorem IsIn.slice?_eq (hc : c.IsIn source.toList) (h : c.Passes piece c') :
    (⟨c.position, c'.position⟩ : Span).slice? source = some (String.ofList piece) := by
  obtain ⟨before, hsource, hsize⟩ := hc
  rw [h.rest_eq] at hsource
  exact Span.slice?_eq hsource hsize h.position_eq.symm

/-- A piece of the source from the position of a cursor begins the rest. -/
theorem IsIn.append_of_slice? {stop : Nat} {text : String} (hc : c.IsIn source.toList)
    (hstop : c.position ≤ stop)
    (h : (⟨c.position, stop⟩ : Span).slice? source = some text) :
    ∃ after, c.rest = text.toList ++ after ∧ c.position + Text.utf8Size text.toList = stop := by
  obtain ⟨before, hsource, hsize⟩ := hc
  rw [Span.slice?, hsource, ← hsize, Text.takeBytes?_append] at h
  change (Text.takeBytes? (stop - Text.utf8Size before)
    ((before ++ c.rest).drop before.length)).bind
      (fun found => some (String.ofList found)) = some text at h
  obtain ⟨found, hfound, htext⟩ := Option.bind_eq_some_iff.1 h
  rw [List.drop_left, hsize] at hfound
  obtain ⟨hbytes, after, hrest⟩ := Text.eq_append_of_takeBytes? hfound
  cases htext
  refine ⟨after, ?_, ?_⟩
  · rw [String.toList_ofList, hrest]
  · rw [String.toList_ofList, hbytes]
    show c.position + (stop - c.position) = stop
    omega

/-! ## What is taken -/

/-- What has been taken, if anything has, is passed and not empty. -/
def Took (c : Cursor) (taken? : Option (List Char × Cursor)) : Prop :=
  ∀ taken ∈ taken?, c.Passes taken.1 taken.2 ∧ taken.1 ≠ []

/-- Skipping stops at the end of the text. -/
theorem skip_min (c : Cursor) (n : Nat) : c.skip (min n c.rest.length) = c.skip n := by
  by_cases hn : n ≤ c.rest.length
  · rw [Nat.min_eq_left hn]
  · have hle : c.rest.length ≤ n := by omega
    rw [Nat.min_eq_right hle, skip, skip, List.take_length, List.take_of_length_le hle,
      List.drop_length, List.drop_of_length_le hle]

/-- A pattern takes what it matches. -/
theorem took_take? (c : Cursor) (pattern : Pattern) : c.Took (c.take? pattern) := by
  intro taken htaken
  rw [take?] at htaken
  cases hpiece : pattern.piece c.rest with
  | nil =>
    rw [hpiece] at htaken
    cases htaken
  | cons x xs =>
    rw [hpiece] at htaken
    cases htaken
    refine ⟨⟨?_, ?_⟩, List.cons_ne_nil x xs⟩
    · rw [← hpiece]
      exact (pattern.piece_append c.rest).symm
    · rw [← hpiece, Pattern.piece, List.length_take, skip_min]

/-- So does a class of characters. -/
theorem took_takeWhile? (c : Cursor) (isMember : Char → Bool) :
    c.Took (c.takeWhile? isMember) := by
  intro taken htaken
  rw [takeWhile?] at htaken
  cases hrun : c.rest.takeWhile isMember with
  | nil =>
    rw [hrun] at htaken
    cases htaken
  | cons x xs =>
    rw [hrun] at htaken
    cases htaken
    refine ⟨⟨?_, ?_⟩, List.cons_ne_nil x xs⟩
    · rw [← hrun]
      exact List.takeWhile_append_dropWhile.symm
    · rw [← hrun]
      exact c.skipWhile_eq_skip isMember

/-- So does a word. -/
theorem took_takeWord? (c : Cursor) : c.Took c.takeWord? := by
  intro taken htaken
  rw [takeWord?, word?] at htaken
  cases hword : Text.leadingWord c.rest with
  | nil =>
    rw [hword] at htaken
    cases htaken
  | cons x xs =>
    rw [hword] at htaken
    cases htaken
    have hpass := c.passes_leadingWord
    rw [hword] at hpass
    exact ⟨hpass, List.cons_ne_nil x xs⟩

end Cursor

/-! ## Runs that cannot be longer -/

/-- The piece of the source between the offsets is allowed, and no longer piece from there is. -/
structure IsLongest (source : String) (allows : List Char → Prop) (start stop : Nat) : Prop where
  allowed : ∃ text, (⟨start, stop⟩ : Span).slice? source = some text ∧ allows text.toList
  le : ∀ stop' text, start ≤ stop' → (⟨start, stop'⟩ : Span).slice? source = some text →
    allows text.toList → stop' ≤ stop

/-- All characters belong to the class. -/
def Text.ConsistsOf (isMember : Char → Bool) (cs : List Char) : Prop := ∀ c ∈ cs, isMember c = true

/-- A first character that may begin an identifier, and others that may go on one; or none. -/
def Text.IsWord : List Char → Prop
  | [] => True
  | c :: cs => isIdentifierStart c = true ∧ ConsistsOf isIdentifierPart cs

namespace Text

/-- What is taken of a class consists of it. -/
theorem consistsOf_takeWhile (isMember : Char → Bool) (cs : List Char) :
    ConsistsOf isMember (cs.takeWhile isMember) :=
  fun c hc => List.all_eq_true.1 List.all_takeWhile c hc

/-- Any run that begins a text is part of the longest one. -/
theorem ConsistsOf.utf8Size_le {isMember : Char → Bool} {cs : List Char}
    (h : ConsistsOf isMember cs) (after : List Char) :
    utf8Size cs ≤ utf8Size ((cs ++ after).takeWhile isMember) := by
  rw [List.takeWhile_append_of_pos h, utf8Size_append]
  exact Nat.le_add_right _ _

/-- The leading word is one. -/
theorem isWord_leadingWord (cs : List Char) : IsWord (leadingWord cs) := by
  cases cs with
  | nil => trivial
  | cons c cs =>
    rw [leadingWord]
    split
    · next hc => exact ⟨hc, consistsOf_takeWhile _ _⟩
    · trivial

theorem IsWord.utf8Size_le {cs : List Char} (h : IsWord cs) (after : List Char) :
    utf8Size cs ≤ utf8Size (leadingWord (cs ++ after)) := by
  cases cs with
  | nil => exact Nat.zero_le _
  | cons c cs =>
    obtain ⟨hc, hcs⟩ := h
    rw [List.cons_append, leadingWord, if_pos hc, utf8Size_cons, utf8Size_cons]
    exact Nat.add_le_add_left (hcs.utf8Size_le after) _

end Text

/-- What is passed is the longest piece allowed if none that begins the rest is longer. -/
theorem Cursor.IsIn.isLongest {source : String} {c c' : Cursor} {piece : List Char}
    {allows : List Char → Prop} (hc : c.IsIn source.toList) (hpass : c.Passes piece c')
    (hallows : allows piece)
    (hle : ∀ cs after, c.rest = cs ++ after → allows cs → Text.utf8Size cs ≤ Text.utf8Size piece) :
    IsLongest source allows c.position c'.position where
  allowed := ⟨_, hc.slice?_eq hpass, by rwa [String.toList_ofList]⟩
  le stop text hstop htext hallowed := by
    obtain ⟨after, hrest, hsize⟩ := hc.append_of_slice? hstop htext
    have hbytes := hle text.toList after hrest hallowed
    rw [hpass.position_eq]
    omega

/-- Past a run is past the longest one. -/
theorem Cursor.IsIn.isLongest_skipWhile {source : String} {c : Cursor}
    (hc : c.IsIn source.toList) (isMember : Char → Bool) :
    IsLongest source (Text.ConsistsOf isMember) c.position (c.skipWhile isMember).position := by
  have hpass : c.Passes (c.rest.takeWhile isMember) (c.skipWhile isMember) :=
    ⟨List.takeWhile_append_dropWhile.symm, c.skipWhile_eq_skip isMember⟩
  refine hc.isLongest hpass (Text.consistsOf_takeWhile _ _) ?_
  intro cs after hrest hcs
  rw [hrest]
  exact hcs.utf8Size_le after

/-- Past a word is past the longest one. -/
theorem Cursor.IsIn.isLongest_word {source : String} {c : Cursor} (hc : c.IsIn source.toList) :
    IsLongest source Text.IsWord c.position
      (c.skip (Text.leadingWord c.rest).length).position := by
  refine hc.isLongest c.passes_leadingWord (Text.isWord_leadingWord _) ?_
  intro cs after hrest hcs
  rw [hrest]
  exact hcs.utf8Size_le after

end Estree
