/-!
# Bytes of a text

Offsets into a text count the bytes of its UTF-8 form. An offset may fall inside a character; then
no piece of the text ends there.
-/

namespace Estree.Text

/-- How many bytes a text has. -/
def utf8Size : List Char → Nat
  | [] => 0
  | c :: cs => c.utf8Size + utf8Size cs

@[simp] theorem utf8Size_nil : utf8Size [] = 0 := rfl

@[simp] theorem utf8Size_cons (c : Char) (cs : List Char) :
    utf8Size (c :: cs) = c.utf8Size + utf8Size cs := rfl

@[simp] theorem utf8Size_append (cs ds : List Char) :
    utf8Size (cs ++ ds) = utf8Size cs + utf8Size ds := by
  induction cs with
  | nil => simp
  | cons c cs ih => rw [List.cons_append, utf8Size_cons, utf8Size_cons, ih, Nat.add_assoc]

/-- The characters within the first `offset` bytes, if a character ends at `offset`. -/
def takeBytes? : Nat → List Char → Option (List Char)
  | 0, _ => some []
  | _ + 1, [] => none
  | offset + 1, c :: cs =>
    if c.utf8Size ≤ offset + 1 then
      (takeBytes? (offset + 1 - c.utf8Size) cs).map (c :: ·)
    else
      none

/-- Every piece of a text is found again by its size. -/
theorem takeBytes?_append (cs ds : List Char) : takeBytes? (utf8Size cs) (cs ++ ds) = some cs := by
  induction cs with
  | nil => cases ds <;> rfl
  | cons c cs ih =>
    have hpos := c.utf8Size_pos
    obtain ⟨n, hn⟩ : ∃ n, utf8Size (c :: cs) = n + 1 :=
      ⟨utf8Size (c :: cs) - 1, by rw [utf8Size_cons]; omega⟩
    have hsize : c.utf8Size + utf8Size cs = n + 1 := by rw [← hn, utf8Size_cons]
    rw [hn, List.cons_append, takeBytes?, if_pos (by omega),
      show n + 1 - c.utf8Size = utf8Size cs by omega, ih]
    rfl

/-- A piece that is found is the start of the text and has the size asked for. -/
theorem eq_append_of_takeBytes? {offset : Nat} {cs piece : List Char}
    (h : takeBytes? offset cs = some piece) :
    utf8Size piece = offset ∧ ∃ ds, cs = piece ++ ds := by
  induction cs generalizing offset piece with
  | nil =>
    cases offset with
    | zero => cases h; exact ⟨rfl, [], rfl⟩
    | succ n => cases h
  | cons c cs ih =>
    cases offset with
    | zero => cases h; exact ⟨rfl, c :: cs, rfl⟩
    | succ n =>
      rw [takeBytes?] at h
      split at h
      · next hc =>
        obtain ⟨rest, hrest, rfl⟩ := Option.map_eq_some_iff.1 h
        obtain ⟨hsize, ds, rfl⟩ := ih hrest
        exact ⟨by rw [utf8Size_cons, hsize]; omega, ds, rfl⟩
      · cases h

end Estree.Text
