import Estree.Json
import Estree.Proofs.Number.Layout

/-!
# Compact texts are read in one way only

> `Json.compact_inj`: two values with the same compact text are the same, if their numbers are
> finite.

A text inside another one ends where it must: the text of a value cannot be continued by what stands
after values. So the statement is about values before any two continuations that begin with a comma
or a bracket that closes (`Closes`), and it yields the continuations as well.

> `Json.writeCompact_inj`: if the text of a value followed by one continuation is that of another
> value followed by another one, both values and both continuations are the same.

The induction goes over the values, their items and their members at once. In each step the first
character shows the kind of the value (`kind_eq`), and then the parts of it are compared in order:
strings end at the first quote that is not escaped (`quoted_inj`), numbers at the first character
that numbers do not have (`number_inj`), and lists at a bracket that begins no item
(`writeCompact_ne_close`). A natural number is told from a double by its digits: the text of a
double has another character as well (`scalarText_natural_ne_real`).
-/

namespace Estree.Json

/-! ## Strings -/

/-- The number that a digit of base sixteen stands for. -/
def hexValue (c : Char) : Nat :=
  if c.isDigit then c.toNat - '0'.toNat else c.toNat - 'a'.toNat + 10

/-- The character that a letter after a backslash stands for. -/
def escaped : Char → Char
  | 'b' => '\x08'
  | 't' => '\t'
  | 'n' => '\n'
  | 'f' => '\x0c'
  | 'r' => '\r'
  | c => c

/-- The first character of what stands inside quotes, and what follows it; nothing at the quote that
ends it. -/
def readQuotedChar? : List Char → Option (Char × List Char)
  | [] => none
  | '"' :: _ => none
  | '\\' :: 'u' :: _ :: _ :: high :: low :: rest =>
    some (Char.ofNat (16 * hexValue high + hexValue low), rest)
  | '\\' :: c :: rest => some (escaped c, rest)
  | c :: rest => some (c, rest)

/-- The number of a digit is found again. -/
theorem hexValue_digitChar {n : Nat} (h : n < 16) : hexValue (Nat.digitChar n) = n := by
  have hall : ∀ n < 16, hexValue (Nat.digitChar n) = n := by decide
  exact hall n h

/-- Every character is read back. -/
theorem readQuotedChar?_quotedChar (c : Char) (rest : List Char) :
    readQuotedChar? (quotedChar c ++ rest) = some (c, rest) := by
  by_cases hquote : c = '"'
  · subst hquote
    rfl
  by_cases hslash : c = '\\'
  · subst hslash
    rfl
  by_cases hback : c = '\x08'
  · subst hback
    rfl
  by_cases htab : c = '\t'
  · subst htab
    rfl
  by_cases hline : c = '\n'
  · subst hline
    rfl
  by_cases hfeed : c = '\x0c'
  · subst hfeed
    rfl
  by_cases hreturn : c = '\r'
  · subst hreturn
    rfl
  by_cases hcontrol : c.toNat < 0x20
  · have hvalue : 16 * hexValue (Nat.digitChar (c.toNat / 16)) +
        hexValue (Nat.digitChar (c.toNat % 16)) = c.toNat := by
      rw [hexValue_digitChar (by omega), hexValue_digitChar (by omega)]
      omega
    simp only [quotedChar, hquote, hslash, hback, htab, hline, hfeed, hreturn, hcontrol, if_false,
      if_true]
    show some (Char.ofNat _, rest) = _
    rw [hvalue, Char.ofNat_toNat]
  · simp only [quotedChar, hquote, hslash, hback, htab, hline, hfeed, hreturn, hcontrol, if_false]
    show readQuotedChar? (c :: rest) = _
    unfold readQuotedChar?
    split <;> simp_all

/-- What stands inside quotes is read in one way only. -/
theorem flatMap_quotedChar_inj {cs ds after after' : List Char}
    (h : cs.flatMap quotedChar ++ '"' :: after = ds.flatMap quotedChar ++ '"' :: after') :
    cs = ds ∧ after = after' := by
  induction cs generalizing ds with
  | nil =>
    cases ds with
    | nil => exact ⟨rfl, (List.cons.inj h).2⟩
    | cons d ds =>
      rw [List.flatMap_cons, List.append_assoc] at h
      have hread := congrArg readQuotedChar? h
      rw [readQuotedChar?_quotedChar] at hread
      cases hread
  | cons c cs ih =>
    cases ds with
    | nil =>
      rw [List.flatMap_cons, List.append_assoc] at h
      have hread := congrArg readQuotedChar? h
      rw [readQuotedChar?_quotedChar] at hread
      cases hread
    | cons d ds =>
      rw [List.flatMap_cons, List.flatMap_cons, List.append_assoc, List.append_assoc] at h
      have hread := congrArg readQuotedChar? h
      rw [readQuotedChar?_quotedChar, readQuotedChar?_quotedChar] at hread
      obtain ⟨hchar, hrest⟩ := Prod.mk.inj (Option.some.inj hread)
      obtain ⟨htail, hafter⟩ := ih hrest
      exact ⟨by rw [hchar, htail], hafter⟩

/-- A string in quotes is read in one way only. -/
theorem quoted_inj {s t : String} {after after' : List Char}
    (h : quoted s ++ after = quoted t ++ after') : s = t ∧ after = after' := by
  rw [quoted, quoted, List.cons_append, List.cons_append, List.append_assoc, List.append_assoc] at h
  obtain ⟨hchars, hafter⟩ := flatMap_quotedChar_inj (List.cons.inj h).2
  exact ⟨String.toList_inj.1 hchars, hafter⟩

/-! ## Numbers -/

mutual

/-- All numbers of a value are finite. -/
def AllFinite : Json → Prop
  | real value => value.isFinite = true
  | array items => AllFiniteItems items
  | object members => AllFiniteMembers members
  | _ => True

def AllFiniteItems : List Json → Prop
  | [] => True
  | item :: rest => item.AllFinite ∧ AllFiniteItems rest

def AllFiniteMembers : List (String × Json) → Prop
  | [] => True
  | (_, value) :: rest => value.AllFinite ∧ AllFiniteMembers rest

end

/-- What stands after a value: nothing, a comma, or a bracket that closes. -/
def Closes (after : List Char) : Prop := ∀ c ∈ after.head?, c ∈ [',', ']', '\x7d']

open Decimal (IsNumberChar)

instance : DecidablePred IsNumberChar := fun c =>
  inferInstanceAs (Decidable (c.isDigit = true ∨ c ∈ ['.', 'e', 'E', '+', '-']))

/-- Numbers have no comma and no bracket. -/
theorem not_isNumberChar_of_closes {after : List Char} (h : Closes after) :
    ∀ c ∈ after.head?, decide (IsNumberChar c) = false := by
  have hall : ∀ c ∈ [',', ']', '\x7d'], decide (IsNumberChar c) = false := by decide
  exact fun c hc => hall c (h c hc)

/-- A number ends where a character is that numbers do not have. -/
theorem number_inj {text text' after after' : List Char} (htext : ∀ c ∈ text, IsNumberChar c)
    (htext' : ∀ c ∈ text', IsNumberChar c) (hafter : Closes after) (hafter' : Closes after')
    (h : text ++ after = text' ++ after') : text = text' ∧ after = after' := by
  have htakes : ∀ c ∈ text, decide (IsNumberChar c) = true := fun c hc =>
    decide_eq_true (htext c hc)
  have htakes' : ∀ c ∈ text', decide (IsNumberChar c) = true := fun c hc =>
    decide_eq_true (htext' c hc)
  have htake := congrArg (List.takeWhile fun c => decide (IsNumberChar c)) h
  have hdrop := congrArg (List.dropWhile fun c => decide (IsNumberChar c)) h
  rw [Text.takeWhile_append htakes (not_isNumberChar_of_closes hafter),
    Text.takeWhile_append htakes' (not_isNumberChar_of_closes hafter')] at htake
  rw [Text.dropWhile_append htakes (not_isNumberChar_of_closes hafter),
    Text.dropWhile_append htakes' (not_isNumberChar_of_closes hafter')] at hdrop
  exact ⟨htake, hdrop⟩

theorem layout_isNumeric : layout.IsNumeric := ⟨.inr rfl, .inr rfl⟩

/-- The text of a number. -/
theorem isNumberChar_of_mem_scalarText {value : Binary64} (h : value.isFinite = true) :
    scalarText (.real value) ≠ [] ∧ ∀ c ∈ scalarText (.real value), IsNumberChar c := by
  rw [scalarText, if_pos h]
  exact Layout.isNumberChar_of_mem_render layout_isNumeric h

/-- Digits are characters of numbers. -/
theorem isNumberChar_of_mem_toDigits {value : Nat} :
    ∀ c ∈ scalarText (.natural value), IsNumberChar c :=
  fun _ hc => .inl (Decimal.isDigit_of_mem_toDigits hc)

/-- No whole number has the text of a double, which has a point or an exponent. -/
theorem scalarText_natural_ne_real (n : Nat) {value : Binary64} (h : value.isFinite = true) :
    scalarText (.natural n) ≠ scalarText (.real value) := by
  intro heq
  obtain ⟨c, hc, hdigit⟩ := layout.exists_not_isDigit_mem_absolute rfl value
  have hreal : scalarText (.real value) =
      (if value.isNegative then ['-'] else []) ++ layout.absolute value := by
    rw [scalarText, if_pos h, Layout.toList_render layout h]
  have hmem : c ∈ scalarText (.natural n) := by
    rw [heq, hreal]
    exact List.mem_append_right _ hc
  rw [Decimal.isDigit_of_mem_toDigits hmem] at hdigit
  cases hdigit

/-- Natural numbers are told by their digits. -/
theorem scalarText_natural_inj {n m : Nat} (h : scalarText (.natural n) = scalarText (.natural m)) :
    n = m := by
  have hvalue := congrArg Decimal.ofDigits h
  rwa [show scalarText (.natural n) = Nat.toDigits 10 n from rfl,
    show scalarText (.natural m) = Nat.toDigits 10 m from rfl, Decimal.ofDigits_toDigits,
    Decimal.ofDigits_toDigits] at hvalue

/-- Finite doubles are told by their texts. -/
theorem scalarText_real_inj {x y : Binary64} (hx : x.isFinite = true) (hy : y.isFinite = true)
    (h : scalarText (.real x) = scalarText (.real y)) : x = y := by
  rw [scalarText, scalarText, if_pos hx, if_pos hy] at h
  exact Layout.render_injective layout_isNumeric hx hy h

/-! ## Values -/

/-- The kind of a value, which the first character of its text shows. -/
inductive Kind where
  | null
  | boolean
  | number
  | string
  | array
  | object
deriving DecidableEq

def kind : Json → Kind
  | null => .null
  | boolean _ => .boolean
  | natural _ | real _ => .number
  | string _ => .string
  | array _ => .array
  | object _ => .object

/-- The kind of value that a text with this first character has. -/
def Kind.ofChar? (c : Char) : Option Kind :=
  if c = 'n' then some .null
  else if c = 't' ∨ c = 'f' then some .boolean
  else if c = '"' then some .string
  else if c = '[' then some .array
  else if c = '\x7b' then some .object
  else if IsNumberChar c then some .number
  else none

/-- A text that begins as numbers do is that of a number. -/
theorem ofChar?_of_isNumberChar {c : Char} (h : IsNumberChar c) :
    Kind.ofChar? c = some .number := by
  have hne : ∀ d ∈ ['n', 't', 'f', '"', '[', '\x7b'], c ≠ d := by
    intro d hd hcd
    subst hcd
    have hnone : ∀ d ∈ ['n', 't', 'f', '"', '[', '\x7b'], ¬ IsNumberChar d := by decide
    exact hnone c hd h
  have hnull := hne 'n' (by decide)
  have htrue := hne 't' (by decide)
  have hfalse := hne 'f' (by decide)
  have hstring := hne '"' (by decide)
  have harray := hne '[' (by decide)
  have hobject := hne '\x7b' (by decide)
  simp only [Kind.ofChar?, hnull, htrue, hfalse, hstring, harray, hobject, h, or_self, if_false,
    if_true]

/-- The first character of a text shows the kind of its value. -/
theorem kind_eq_of_head? {json : Json} (h : json.AllFinite) (after : List Char) :
    ∃ c, (json.writeCompact after).head? = some c ∧ Kind.ofChar? c = some json.kind := by
  have hnumber {text : List Char} (hne : text ≠ []) (htext : ∀ c ∈ text, IsNumberChar c) :
      ∃ c, (text ++ after).head? = some c ∧ Kind.ofChar? c = some .number := by
    obtain ⟨c, cs, rfl⟩ := List.exists_cons_of_ne_nil hne
    exact ⟨c, rfl, ofChar?_of_isNumberChar (htext c List.mem_cons_self)⟩
  cases json with
  | null => exact ⟨'n', rfl, rfl⟩
  | boolean value => cases value with
    | true => exact ⟨'t', rfl, rfl⟩
    | false => exact ⟨'f', rfl, rfl⟩
  | natural value =>
    rw [writeCompact]
    exact hnumber Nat.toDigits_ne_nil isNumberChar_of_mem_toDigits
  | real value =>
    rw [writeCompact]
    have hscalar := @isNumberChar_of_mem_scalarText value h
    exact hnumber hscalar.1 hscalar.2
  | string value => exact ⟨'"', rfl, rfl⟩
  | array items => cases items with
    | nil => exact ⟨'[', rfl, rfl⟩
    | cons item rest => exact ⟨'[', rfl, rfl⟩
  | object members => cases members with
    | nil => exact ⟨'\x7b', rfl, rfl⟩
    | cons member rest => exact ⟨'\x7b', rfl, rfl⟩

/-- Values with the same text are of the same kind. -/
theorem kind_eq {j k : Json} {after after' : List Char} (hj : j.AllFinite) (hk : k.AllFinite)
    (h : j.writeCompact after = k.writeCompact after') : j.kind = k.kind := by
  obtain ⟨c, hc, hkind⟩ := kind_eq_of_head? hj after
  obtain ⟨d, hd, hkind'⟩ := kind_eq_of_head? hk after'
  rw [h, hd] at hc
  cases hc
  exact Option.some.inj (hkind.symm.trans hkind')

/-- No text of a value begins with a bracket that closes. -/
theorem writeCompact_ne_close {json : Json} {after rest : List Char} (h : json.AllFinite) :
    json.writeCompact after ≠ ']' :: rest := by
  intro htext
  obtain ⟨c, hc, hkind⟩ := kind_eq_of_head? h after
  rw [htext] at hc
  cases hc
  cases hkind

theorem closes_nil : Closes [] := by
  intro c hc
  cases hc

/-- What stands after an item is a comma or the bracket that closes. -/
theorem closes_writeCompactItems (items : List Json) (after : List Char) :
    Closes (writeCompactItems items after) := by
  intro c hc
  cases items <;> cases hc <;> decide

/-- So it is after a member. -/
theorem closes_writeCompactMembers (members : List (String × Json)) (after : List Char) :
    Closes (writeCompactMembers members after) := by
  intro c hc
  cases members <;> cases hc <;> decide

mutual

/-- A compact text is read in one way only, before anything that may stand after it. -/
theorem writeCompact_inj {j k : Json} {after after' : List Char} (hj : j.AllFinite)
    (hk : k.AllFinite) (hafter : Closes after) (hafter' : Closes after')
    (h : j.writeCompact after = k.writeCompact after') : j = k ∧ after = after' := by
  have hkind := kind_eq hj hk h
  -- The first character has settled the kind, so only values of one kind are compared.
  cases j with
  | null =>
    cases k with
    | null => exact ⟨rfl, List.append_cancel_left h⟩
    | _ => cases hkind
  | boolean value =>
    cases k with
    | boolean value' =>
      cases value <;> cases value' <;> simp [writeCompact, scalarText] at h ⊢
      all_goals exact h
    | _ => cases hkind
  | natural n =>
    rw [writeCompact] at h
    cases k with
    | natural m =>
      rw [writeCompact] at h
      obtain ⟨htext, hrest⟩ := number_inj isNumberChar_of_mem_toDigits
        isNumberChar_of_mem_toDigits hafter hafter' h
      exact ⟨congrArg natural (scalarText_natural_inj htext), hrest⟩
    | real y =>
      rw [writeCompact] at h
      obtain ⟨htext, -⟩ := number_inj isNumberChar_of_mem_toDigits
        (isNumberChar_of_mem_scalarText hk).2 hafter hafter' h
      exact absurd htext (scalarText_natural_ne_real n hk)
    | _ => cases hkind
  | real x =>
    rw [writeCompact] at h
    cases k with
    | natural m =>
      rw [writeCompact] at h
      obtain ⟨htext, -⟩ := number_inj (isNumberChar_of_mem_scalarText hj).2
        isNumberChar_of_mem_toDigits hafter hafter' h
      exact absurd htext.symm (scalarText_natural_ne_real m hj)
    | real y =>
      rw [writeCompact] at h
      obtain ⟨htext, hrest⟩ := number_inj (isNumberChar_of_mem_scalarText hj).2
        (isNumberChar_of_mem_scalarText hk).2 hafter hafter' h
      exact ⟨congrArg real (scalarText_real_inj hj hk htext), hrest⟩
    | _ => cases hkind
  | string s =>
    cases k with
    | string t =>
      rw [writeCompact, writeCompact] at h
      obtain ⟨hst, hrest⟩ := quoted_inj h
      exact ⟨congrArg string hst, hrest⟩
    | _ => cases hkind
  | array items =>
    cases k with
    | array items' =>
      cases items with
      | nil =>
        cases items' with
        | nil => exact ⟨rfl, (List.cons.inj (List.cons.inj h).2).2⟩
        | cons item' rest' => exact absurd (List.cons.inj h).2.symm (writeCompact_ne_close hk.1)
      | cons item rest =>
        cases items' with
        | nil => exact absurd (List.cons.inj h).2 (writeCompact_ne_close hj.1)
        | cons item' rest' =>
          obtain ⟨hitems, hrest⟩ := writeCompactItems_inj hj hk
            (congrArg (',' :: ·) (List.cons.inj h).2)
          exact ⟨congrArg array hitems, hrest⟩
    | _ => cases hkind
  | object members =>
    cases k with
    | object members' =>
      cases members with
      | nil =>
        cases members' with
        | nil => exact ⟨rfl, (List.cons.inj (List.cons.inj h).2).2⟩
        | cons member' rest' => cases (List.cons.inj (List.cons.inj h).2).1
      | cons member rest =>
        cases members' with
        | nil => cases (List.cons.inj (List.cons.inj h).2).1
        | cons member' rest' =>
          obtain ⟨hmembers, hrest⟩ := writeCompactMembers_inj hj hk
            (congrArg (',' :: ·) (List.cons.inj h).2)
          exact ⟨congrArg object hmembers, hrest⟩
    | _ => cases hkind
termination_by sizeOf j

/-- The further items of an array are read in one way only. -/
theorem writeCompactItems_inj {items items' : List Json} {after after' : List Char}
    (hitems : AllFiniteItems items) (hitems' : AllFiniteItems items')
    (h : writeCompactItems items after = writeCompactItems items' after') :
    items = items' ∧ after = after' := by
  cases items with
  | nil =>
    cases items' with
    | nil => exact ⟨rfl, (List.cons.inj h).2⟩
    | cons item' rest' => cases (List.cons.inj h).1
  | cons item rest =>
    cases items' with
    | nil => cases (List.cons.inj h).1
    | cons item' rest' =>
      obtain ⟨hitem, hrest⟩ := writeCompact_inj hitems.1 hitems'.1
        (closes_writeCompactItems rest after) (closes_writeCompactItems rest' after')
        (List.cons.inj h).2
      obtain ⟨hrest, hafter⟩ := writeCompactItems_inj hitems.2 hitems'.2 hrest
      exact ⟨by rw [hitem, hrest], hafter⟩
termination_by sizeOf items

/-- The further members of an object are read in one way only. -/
theorem writeCompactMembers_inj {members members' : List (String × Json)}
    {after after' : List Char} (hmembers : AllFiniteMembers members)
    (hmembers' : AllFiniteMembers members')
    (h : writeCompactMembers members after = writeCompactMembers members' after') :
    members = members' ∧ after = after' := by
  match members, members', hmembers, hmembers', h with
  | [], [], _, _, h => exact ⟨rfl, (List.cons.inj h).2⟩
  | [], _ :: _, _, _, h => cases (List.cons.inj h).1
  | _ :: _, [], _, _, h => cases (List.cons.inj h).1
  | (name, value) :: rest, (name', value') :: rest', hmembers, hmembers', h =>
    obtain ⟨hname, hvalue⟩ := quoted_inj (List.cons.inj h).2
    obtain ⟨hvalue, hrest⟩ := writeCompact_inj hmembers.1 hmembers'.1
      (closes_writeCompactMembers rest after) (closes_writeCompactMembers rest' after')
      (List.cons.inj hvalue).2
    obtain ⟨hrest, hafter⟩ := writeCompactMembers_inj hmembers.2 hmembers'.2 hrest
    exact ⟨by rw [hname, hvalue, hrest], hafter⟩
termination_by sizeOf members

end

/-- Values with the same compact text are the same. -/
theorem compact_inj {j k : Json} (hj : j.AllFinite) (hk : k.AllFinite)
    (h : j.compact = k.compact) : j = k := by
  rw [compact, compact] at h
  exact (writeCompact_inj hj hk closes_nil closes_nil (String.ofList_inj.1 h)).1

end Estree.Json
