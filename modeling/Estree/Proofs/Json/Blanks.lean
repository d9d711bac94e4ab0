import Estree.Proofs.Json.Compact
import Mathlib.Tactic.SplitIfs

/-!
# Blanks between the parts of a text

`withoutBlanks` deletes the blanks of a text that stand outside strings. The indented text of a
value and the compact one differ in these only.

> `withoutBlanks_pretty`: what is left of the indented text is the compact one.

> `withoutBlanks_compact`: the compact text has none.

A scan over the text needs to know no more than whether it is inside a string and whether the
character before was a backslash (`Place`). The text of a value begins and ends outside strings, so
both are shown before any text that follows: the scan goes through the text of a value and is
outside again (`strip_writeCompact`, `strip_writeIndented`). Inside a string it goes on until the
quote that ends it, whatever is escaped there (`strip_quoted`).
-/

namespace Estree.Json

/-- Where in a text a character stands. -/
inductive Place where
  | outside
  | inside
  /-- Inside a string, right after a backslash. -/
  | escaped
deriving DecidableEq

/-- A character stands inside quotes as itself, or as a backslash with some characters after it, of
which at most the first one has a meaning there. -/
theorem quotedChar_cases (c : Char) :
    (quotedChar c = [c] ∧ c ≠ '"' ∧ c ≠ '\\') ∨
      ∃ d ds, quotedChar c = '\\' :: d :: ds ∧ ∀ x ∈ ds, x ≠ '"' ∧ x ≠ '\\' := by
  have hhex : ∀ n < 16, Nat.digitChar n ≠ '"' ∧ Nat.digitChar n ≠ '\\' := by decide
  unfold quotedChar
  split_ifs with hquote hslash _ _ _ _ _ hcontrol
  any_goals exact .inr ⟨_, [], rfl, nofun⟩
  · refine .inr ⟨'u', _, rfl, fun x hx => ?_⟩
    simp only [List.mem_cons, List.not_mem_nil, or_false] at hx
    rcases hx with rfl | rfl | rfl | rfl
    · decide
    · decide
    · exact hhex _ (by omega)
    · exact hhex _ (by omega)
  · exact .inl ⟨rfl, hquote, hslash⟩

namespace Place

/-- The place after a character. -/
def next : Place → Char → Place
  | outside, c => if c = '"' then inside else outside
  | inside, c => if c = '"' then outside else if c = '\\' then escaped else inside
  | escaped, _ => inside

/-- The blanks of JSON. -/
def isBlank (c : Char) : Bool :=
  c = ' ' || c = '\t' || c = '\n' || c = '\r'

/-- A text from a place on, without the blanks outside strings. -/
def strip (place : Place) : List Char → List Char
  | [] => []
  | c :: cs =>
    if place = outside ∧ isBlank c then strip (place.next c) cs
    else c :: strip (place.next c) cs

/-- A blank outside strings is deleted. -/
theorem strip_blank {c : Char} (hc : isBlank c = true) (rest : List Char) :
    outside.strip (c :: rest) = outside.strip rest := by
  have hquote : c ≠ '"' := by
    intro h
    subst h
    cases hc
  rw [strip, if_pos ⟨rfl, hc⟩, next, if_neg hquote]

/-- Any other character is kept. -/
theorem strip_cons {c : Char} (hquote : c ≠ '"') (hc : isBlank c = false) (rest : List Char) :
    outside.strip (c :: rest) = c :: outside.strip rest := by
  rw [strip, if_neg (by simp [hc]), next, if_neg hquote]

/-- Text without quotes and blanks is kept. -/
theorem strip_append {text : List Char} (h : ∀ c ∈ text, c ≠ '"' ∧ isBlank c = false)
    (rest : List Char) : outside.strip (text ++ rest) = text ++ outside.strip rest := by
  induction text with
  | nil => rfl
  | cons c cs ih =>
    obtain ⟨hquote, hblank⟩ := h c List.mem_cons_self
    rw [List.cons_append, strip_cons hquote hblank, ih fun d hd => h d (List.mem_cons_of_mem _ hd)]
    rfl

/-- Text of blanks is deleted. -/
theorem strip_blanks {text : List Char} (h : ∀ c ∈ text, isBlank c = true) (rest : List Char) :
    outside.strip (text ++ rest) = outside.strip rest := by
  induction text with
  | nil => rfl
  | cons c cs ih =>
    rw [List.cons_append, strip_blank (h c List.mem_cons_self),
      ih fun d hd => h d (List.mem_cons_of_mem _ hd)]

/-- Inside strings everything is kept. -/
theorem strip_inside (c : Char) (rest : List Char) :
    inside.strip (c :: rest) = c :: (inside.next c).strip rest := by
  rw [strip, if_neg (by simp)]

/-- The character after a backslash is kept and ends no string. -/
theorem strip_escaped (c : Char) (rest : List Char) :
    escaped.strip (c :: rest) = c :: inside.strip rest := by
  rw [strip, if_neg (by simp)]
  rfl

/-- A character inside quotes leaves the scan inside them. -/
theorem strip_quotedChar (c : Char) (rest : List Char) :
    inside.strip (quotedChar c ++ rest) = quotedChar c ++ inside.strip rest := by
  have hescape (d : Char) (rest : List Char) :
      inside.strip ('\\' :: d :: rest) = '\\' :: d :: inside.strip rest := by
    rw [strip_inside]
    show '\\' :: escaped.strip (d :: rest) = _
    rw [strip_escaped]
  have hplain (c : Char) (hc : c ≠ '"' ∧ c ≠ '\\') (rest : List Char) :
      inside.strip (c :: rest) = c :: inside.strip rest := by
    rw [strip_inside, next, if_neg hc.1, if_neg hc.2]
  -- Whatever the backslash protects, nothing after it ends the string or begins an escape.
  rcases quotedChar_cases c with ⟨hself, hc⟩ | ⟨d, ds, hescaped, hds⟩
  · rw [hself]
    exact hplain c hc rest
  · rw [hescaped, List.cons_append, List.cons_append, hescape]
    congr 2
    clear hescaped
    induction ds with
    | nil => rfl
    | cons x xs ih =>
      rw [List.cons_append, hplain x (hds x List.mem_cons_self),
        ih fun y hy => hds y (List.mem_cons_of_mem _ hy)]
      rfl

/-- A string is kept. -/
theorem strip_quoted (s : String) (rest : List Char) :
    outside.strip (quoted s ++ rest) = quoted s ++ outside.strip rest := by
  have hinside (cs : List Char) :
      inside.strip (cs.flatMap quotedChar ++ '"' :: rest) =
        cs.flatMap quotedChar ++ '"' :: outside.strip rest := by
    induction cs with
    | nil => exact strip_inside '"' rest
    | cons c cs ih =>
      rw [List.flatMap_cons, List.append_assoc, strip_quotedChar, ih, List.append_assoc]
  rw [quoted, List.cons_append, List.append_assoc, strip, if_neg (by decide)]
  show '"' :: inside.strip (s.toList.flatMap quotedChar ++ '"' :: rest) = _
  rw [hinside, List.cons_append, List.append_assoc]
  rfl

/-- Numbers have no quotes and no blanks. -/
theorem isPlain_of_isNumberChar {c : Char} (h : Decimal.IsNumberChar c) :
    c ≠ '"' ∧ isBlank c = false := by
  have hnone : ∀ d ∈ ['"', ' ', '\t', '\n', '\r'], ¬ Decimal.IsNumberChar d := by decide
  have hne : ∀ d ∈ ['"', ' ', '\t', '\n', '\r'], c ≠ d := by
    intro d hd hcd
    exact hnone d hd (hcd ▸ h)
  refine ⟨hne '"' (by decide), ?_⟩
  simp [isBlank, hne ' ' (by decide), hne '\t' (by decide), hne '\n' (by decide),
    hne '\r' (by decide)]

/-- The text of a value without parts is kept. -/
theorem strip_scalarText (json : Json) (rest : List Char) :
    outside.strip (scalarText json ++ rest) = scalarText json ++ outside.strip rest := by
  cases json with
  | null => exact strip_append (by decide) rest
  | boolean value =>
    cases value with
    | true => exact strip_append (by decide) rest
    | false => exact strip_append (by decide) rest
  | natural value =>
    exact strip_append
      (fun c hc => isPlain_of_isNumberChar (isNumberChar_of_mem_toDigits c hc)) rest
  | real value =>
    by_cases hfinite : value.isFinite = true
    · have htext := (isNumberChar_of_mem_scalarText hfinite).2
      exact strip_append (fun c hc => isPlain_of_isNumberChar (htext c hc)) rest
    · rw [scalarText, if_neg hfinite]
      exact strip_append (by decide) rest
  | string s => exact strip_quoted s rest
  | array items => rfl
  | object members => rfl

end Place

open Place

/-- A text without the blanks that stand outside strings. -/
def withoutBlanks (text : String) : String :=
  String.ofList (outside.strip text.toList)

/-! ## The compact text -/

mutual

/-- A compact text has no blanks outside strings. -/
theorem strip_writeCompact (json : Json) (after : List Char) :
    outside.strip (json.writeCompact after) = json.writeCompact (outside.strip after) := by
  match json with
  | array [] => rfl
  | array (item :: rest) =>
    rw [writeCompact, strip_cons (by decide) (by decide), strip_writeCompact item,
      strip_writeCompactItems rest after]
    rfl
  | object [] => rfl
  | object ((name, value) :: rest) =>
    rw [writeCompact, strip_cons (by decide) (by decide), strip_quoted,
      strip_cons (by decide) (by decide), strip_writeCompact value,
      strip_writeCompactMembers rest after]
    rfl
  | null => exact strip_scalarText .null after
  | boolean value => exact strip_scalarText (.boolean value) after
  | natural value => exact strip_scalarText (.natural value) after
  | real value => exact strip_scalarText (.real value) after
  | string value => exact strip_scalarText (.string value) after

/-- The items of a compact array are kept as they are. -/
theorem strip_writeCompactItems (items : List Json) (after : List Char) :
    outside.strip (writeCompactItems items after) =
      writeCompactItems items (outside.strip after) := by
  match items with
  | [] => exact strip_cons (by decide) (by decide) after
  | item :: rest =>
    rw [writeCompactItems, strip_cons (by decide) (by decide), strip_writeCompact item,
      strip_writeCompactItems rest after]
    rfl

/-- So are the members of an object. -/
theorem strip_writeCompactMembers (members : List (String × Json)) (after : List Char) :
    outside.strip (writeCompactMembers members after) =
      writeCompactMembers members (outside.strip after) := by
  match members with
  | [] => exact strip_cons (by decide) (by decide) after
  | (name, value) :: rest =>
    rw [writeCompactMembers, strip_cons (by decide) (by decide), strip_quoted,
      strip_cons (by decide) (by decide), strip_writeCompact value,
      strip_writeCompactMembers rest after]
    rfl

end

/-! ## The indented text -/

/-- A new line with its indentation is deleted. -/
theorem strip_newLine (level : Nat) (rest : List Char) :
    outside.strip (newLine level ++ rest) = outside.strip rest := by
  refine strip_blanks (fun c hc => ?_) rest
  rcases List.mem_cons.1 hc with rfl | hc
  · rfl
  · rw [List.eq_of_mem_replicate hc]
    rfl

mutual

/-- Without its blanks an indented text is the compact one. -/
theorem strip_writeIndented (level : Nat) (json : Json) (after : List Char) :
    outside.strip (json.writeIndented level after) = json.writeCompact (outside.strip after) := by
  match json with
  | array [] => rfl
  | array (item :: rest) =>
    rw [writeIndented, strip_cons (by decide) (by decide), strip_newLine,
      strip_writeIndented (level + 1) item, strip_writeIndentedItems level rest after]
    rfl
  | object [] => rfl
  | object ((name, value) :: rest) =>
    rw [writeIndented, strip_cons (by decide) (by decide), strip_newLine, strip_quoted,
      strip_cons (by decide) (by decide), strip_blank rfl,
      strip_writeIndented (level + 1) value, strip_writeIndentedMembers level rest after]
    rfl
  | null => exact strip_scalarText .null after
  | boolean value => exact strip_scalarText (.boolean value) after
  | natural value => exact strip_scalarText (.natural value) after
  | real value => exact strip_scalarText (.real value) after
  | string value => exact strip_scalarText (.string value) after

/-- The items of an indented array are left as in the compact one. -/
theorem strip_writeIndentedItems (level : Nat) (items : List Json) (after : List Char) :
    outside.strip (writeIndentedItems level items after) =
      writeCompactItems items (outside.strip after) := by
  match items with
  | [] =>
    rw [writeIndentedItems, strip_newLine]
    exact strip_cons (by decide) (by decide) after
  | item :: rest =>
    rw [writeIndentedItems, strip_cons (by decide) (by decide), strip_newLine,
      strip_writeIndented (level + 1) item, strip_writeIndentedItems level rest after]
    rfl

/-- So are the members of an object. -/
theorem strip_writeIndentedMembers (level : Nat) (members : List (String × Json))
    (after : List Char) :
    outside.strip (writeIndentedMembers level members after) =
      writeCompactMembers members (outside.strip after) := by
  match members with
  | [] =>
    rw [writeIndentedMembers, strip_newLine]
    exact strip_cons (by decide) (by decide) after
  | (name, value) :: rest =>
    rw [writeIndentedMembers, strip_cons (by decide) (by decide), strip_newLine, strip_quoted,
      strip_cons (by decide) (by decide), strip_blank rfl,
      strip_writeIndented (level + 1) value, strip_writeIndentedMembers level rest after]
    rfl

end

theorem withoutBlanks_compact (json : Json) : withoutBlanks json.compact = json.compact := by
  rw [withoutBlanks, compact, String.toList_ofList, strip_writeCompact]
  rfl

theorem withoutBlanks_pretty (json : Json) : withoutBlanks json.pretty = json.compact := by
  rw [withoutBlanks, pretty, compact, String.toList_ofList, strip_writeIndented]
  rfl

end Estree.Json
