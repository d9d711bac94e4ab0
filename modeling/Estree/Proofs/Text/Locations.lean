import Mathlib.Data.List.DropRight
import Mathlib.Data.Prod.Lex
import Mathlib.Order.Monotone.Basic
import Estree.Proofs.Expr.Spans
import Estree.Text.Location

/-!
# Locations tell offsets apart

A location is a line and a column, both counted from one, and errors are reported with it. Is it
enough to find the place again?

> `Location.ofOffset_faithful`: what is further on in a text is further on by line and column, so a
> location belongs to one offset between characters. All other offsets have the location of the end.

Every character moves the location on (`order_lt_next`), a line end as well: it goes back to the
first column, but of a later line. So the order of locations is that of lines first and columns
second, and going over a piece of the text that is not empty goes up in it
(`order_lt_after_append`).

`line_after` and `column_after` say what the two numbers count: the line ends before the place, and
the characters since the last one of them.
-/

namespace Estree.Text

/-- Offsets between characters are those up to which a text can be taken. -/
theorem isBoundary_iff {text : List Char} {offset : Nat} :
    IsBoundary text offset ↔ (takeBytes? offset text).isSome = true := by
  constructor
  · rintro ⟨before, rest, rfl, rfl⟩
    rw [takeBytes?_append]
    rfl
  · intro h
    obtain ⟨before, hbefore⟩ := Option.isSome_iff_exists.1 h
    obtain ⟨hsize, rest, htext⟩ := eq_append_of_takeBytes? hbefore
    exact ⟨before, rest, htext, hsize⟩

instance {text : List Char} {offset : Nat} : Decidable (IsBoundary text offset) :=
  decidable_of_iff _ isBoundary_iff.symm

/-- Between two offsets between characters there is a piece of the text. -/
theorem IsBoundary.exists_piece {text : List Char} {start stop : Nat}
    (hstart : IsBoundary text start) (hstop : IsBoundary text stop) (hlt : start < stop) :
    ∃ before piece rest, text = before ++ piece ++ rest ∧ piece ≠ [] ∧
      utf8Size before = start ∧ utf8Size (before ++ piece) = stop := by
  obtain ⟨before, behind, rfl, rfl⟩ := hstart
  obtain ⟨piece, rest, rfl, hsize⟩ := hstop.exists_split (Nat.le_of_lt hlt)
  refine ⟨before, piece, rest, (List.append_assoc ..).symm, ?_, rfl, ?_⟩
  · rintro rfl
    rw [utf8Size_nil] at hsize
    omega
  · rw [utf8Size_append, hsize]

namespace Location

/-! ## What lines and columns count -/

/-- The line counts the line ends before it. -/
theorem line_after (before : List Char) : (after before).line = 1 + before.count '\n' := by
  induction before using List.reverseRecOn with
  | nil => rfl
  | append_singleton before c ih =>
    rw [after_concat, next, List.count_append, List.count_singleton]
    by_cases hc : c = '\n'
    · simp [hc, ih, Nat.add_assoc]
    · simp [hc, ih]

/-- The column counts the characters behind the last line end. -/
theorem column_after (before : List Char) :
    (after before).column = 1 + (before.rtakeWhile (· != '\n')).length := by
  induction before using List.reverseRecOn with
  | nil => rfl
  | append_singleton before c ih =>
    rw [after_concat, next, List.rtakeWhile_concat]
    by_cases hc : c = '\n'
    · simp [hc]
    · simp [hc, ih, Nat.add_assoc]

/-- An offset between two characters has the line and the column that are counted in the text
before it. -/
theorem ofOffset_counts {text : List Char} {offset : Nat} (h : IsBoundary text offset) :
    ∃ before rest, text = before ++ rest ∧ utf8Size before = offset ∧
      (ofOffset text offset).line = 1 + before.count '\n' ∧
      (ofOffset text offset).column = 1 + (before.rtakeWhile (· != '\n')).length := by
  obtain ⟨before, rest, rfl, rfl⟩ := h
  rw [ofOffset_utf8Size]
  exact ⟨before, rest, rfl, rfl, line_after before, column_after before⟩

/-! ## The order of locations -/

/-- Locations are ordered by line, and within a line by column. -/
def order (here : Location) : Lex (Nat × Nat) := toLex (here.line, here.column)

/-- The order of locations in terms of their two numbers. -/
theorem order_lt_iff {here there : Location} : here.order < there.order ↔
    here.line < there.line ∨ here.line = there.line ∧ here.column < there.column :=
  Prod.Lex.toLex_lt_toLex

/-- Every character moves the location on. -/
theorem order_lt_next (here : Location) (c : Char) : here.order < (here.next c).order := by
  rw [order_lt_iff, next]
  by_cases hc : c = '\n'
  · rw [if_pos hc]
    exact Or.inl (Nat.lt_succ_self _)
  · rw [if_neg hc]
    exact Or.inr ⟨rfl, Nat.lt_succ_self _⟩

/-- And so does every piece of a text. -/
theorem order_lt_after_append (before : List Char) {piece : List Char} (hne : piece ≠ []) :
    (after before).order < (after (before ++ piece)).order := by
  induction piece using List.reverseRecOn with
  | nil => exact absurd rfl hne
  | append_singleton piece c ih =>
    have hnext := order_lt_next (after (before ++ piece)) c
    rw [← List.append_assoc, after_concat]
    rcases List.eq_nil_or_concat piece with rfl | ⟨_, _, rfl⟩
    · rwa [List.append_nil] at hnext ⊢
    · exact (ih (by simp)).trans hnext

variable {text : List Char} {offset : Nat}

/-- What is further on in the text has a later location. -/
theorem order_ofOffset_lt {start stop : Nat} (hstart : IsBoundary text start)
    (hstop : IsBoundary text stop) (hlt : start < stop) :
    (ofOffset text start).order < (ofOffset text stop).order := by
  obtain ⟨before, piece, rest, rfl, hne, rfl, rfl⟩ := hstart.exists_piece hstop hlt
  rw [ofOffset_utf8Size, List.append_assoc, ofOffset_utf8Size]
  exact order_lt_after_append before hne

/-- An offset within a character, or past the end, has the location of the end. -/
theorem ofOffset_of_not_isBoundary (h : ¬IsBoundary text offset) :
    ofOffset text offset = after text := by
  rw [isBoundary_iff, Option.not_isSome_iff_eq_none] at h
  rw [ofOffset, h, Option.getD_none]

theorem ofOffset_end (text : List Char) : ofOffset text (utf8Size text) = after text := by
  have hend := ofOffset_utf8Size text []
  rwa [List.append_nil] at hend

/-- Among the offsets between characters, a later one has a later location, so that line and column
determine the offset. Past the end and within a character the location is that of the end. -/
theorem ofOffset_faithful (text : List Char) :
    StrictMonoOn (fun offset => (ofOffset text offset).order) {offset | IsBoundary text offset} ∧
      Set.InjOn (ofOffset text) {offset | IsBoundary text offset} ∧
      ∀ offset, utf8Size text < offset ∨ ¬IsBoundary text offset →
        ofOffset text offset = ofOffset text (utf8Size text) := by
  have hmono : StrictMonoOn (fun offset => (ofOffset text offset).order)
      {offset | IsBoundary text offset} := fun _ hstart _ hstop => order_ofOffset_lt hstart hstop
  refine ⟨hmono, fun start hstart stop hstop heq => ?_, fun offset houtside => ?_⟩
  · exact hmono.injOn hstart hstop (congrArg order heq)
  · have hnot : ¬IsBoundary text offset := by
      rcases houtside with hpast | hnot
      · exact fun h => absurd h.le (Nat.not_le.2 hpast)
      · exact hnot
    rw [ofOffset_of_not_isBoundary hnot, ofOffset_end]

/-- Across a line end, within a character of two bytes, and past the end. -/
theorem ofOffset_faithful_lineEnd :
    let text := "é\nb".toList
    (IsBoundary text 2 ∧ IsBoundary text 3 ∧
      (ofOffset text 2).order < (ofOffset text 3).order) ∧
    (¬IsBoundary text 1 ∧ ofOffset text 1 = ofOffset text (utf8Size text)) ∧
    (utf8Size text < 9 ∧ ofOffset text 9 = ofOffset text (utf8Size text)) := by
  intro text
  obtain ⟨hmono, -, houtside⟩ := ofOffset_faithful text
  have h₂ : IsBoundary text 2 := by decide
  have h₃ : IsBoundary text 3 := by decide
  have h₁ : ¬IsBoundary text 1 := by decide
  have h₉ : utf8Size text < 9 := by decide
  exact ⟨⟨h₂, h₃, hmono h₂ h₃ (by decide)⟩, ⟨h₁, houtside 1 (.inr h₁)⟩,
    ⟨h₉, houtside 9 (.inl h₉)⟩⟩

end Location

end Estree.Text
