import Estree.Proofs.Grammar.Completeness
import Estree.Proofs.Transfer.Template

/-!
# Leaves in other texts

A word or a number is read in the same way wherever the text after it begins as before or with a
parenthesis: what a scan takes, it takes there too.

A scan goes on with a class of characters and stops at the first one that is no member. The text
behind begins as before, or with a delimiter, or is empty (`Text.Beside`), and delimiters are in no
class that a word or a number is made of. So each step of a scan is taken in
the other text as well: digits, a point with digits behind it, a power with its sign. A number is
put together from these steps (`number_beside`).
-/

namespace Estree

open Text

namespace Cursor

variable {c c' d d' : Cursor} {piece : List Char}

/-- Before a piece that stands in both texts these begin alike. -/
theorem Passes.beside_of_ne_nil (hc : c.Passes piece c') (hd : d.Passes piece d')
    (hne : piece ≠ []) : Beside c.rest d.rest := by
  obtain ⟨x, xs, rfl⟩ := List.exists_cons_of_ne_nil hne
  rw [hc.rest_eq, hd.rest_eq]
  exact fun y hy => Or.inl hy

/-- What precedes texts that begin alike begins alike. -/
theorem Passes.beside (hc : c.Passes piece c') (hd : d.Passes piece d')
    (hbeside : Beside c'.rest d'.rest) : Beside c.rest d.rest := by
  by_cases hne : piece = []
  · subst hne
    rwa [hc.eq_of_nil, hd.eq_of_nil] at hbeside
  · exact hc.beside_of_ne_nil hd hne

end Cursor

namespace Scan

variable {p : Char → Bool} {c c' d d' : Cursor} {text : List Char}

/-- A run of a class without delimiters ends at the same place. -/
theorem takeWhile_beside (hdelimiters : ∀ x ∈ delimiters, p x = false)
    (h : takeWhile p c = .ok text c') (hd : d.Passes text d') (hbeside : Beside c'.rest d'.rest) :
    takeWhile p d = .ok text d' := by
  obtain ⟨hc, hall⟩ := takeWhile_eq_ok h
  have hold : ∀ x ∈ c'.rest.head?, p x = false := by
    rw [takeWhile_run] at h
    cases h
    rw [← Cursor.skipWhile_eq_skip]
    exact fun x hx => not_of_mem_head?_dropWhile hx
  rw [takeWhile_append_run hd.rest_eq hall (hbeside.forall_head? hold hdelimiters), hd.eq_skip]

/-- One character of a class is found, or is not. -/
theorem piece_one_beside (hdelimiters : ∀ x ∈ delimiters, p x = false)
    (h : piece (.one p) c = .ok text c') (hd : d.Passes text d')
    (hbeside : Beside c'.rest d'.rest) :
    piece (.one p) d = .ok text d' := by
  obtain ⟨hc, hkind⟩ := piece_one_eq_ok h
  rcases hkind with rfl | ⟨x, rfl, hx⟩
  · have hold : ∀ x ∈ c.rest.head?, p x = false := fun x hx => Bool.eq_false_iff.2 fun hp => by
      rw [piece_one_run hx hp] at h
      cases h
    have hnew := (hc.beside hd hbeside).forall_head? hold hdelimiters
    rw [piece_one_none_run hnew, hd.eq_skip]
    rfl
  · have hhead : d.rest.head? = some x := hd.head?_rest
    rw [piece_one_run hhead hx, hd.eq_skip]
    rfl

end Scan

namespace Leaf

open Scan

variable {c c' d d' : Cursor} {text : List Char} {e : Expr}

/-- A power is read with the same sign and the same digits. -/
theorem power_beside (h : power c = .ok text c') (hd : d.Passes text d')
    (hbeside : Beside c'.rest d'.rest) : power d = .ok text d' := by
  rw [power, Pattern.exponentMarker, Pattern.exponentSign] at h ⊢
  obtain ⟨marker, c₁, hmarker, h⟩ := bind_eq_ok.1 h
  rw [ite_run] at h
  split at h
  next hempty =>
    obtain ⟨rfl, rfl⟩ := pure_eq_ok.1 h
    obtain rfl : marker = [] := List.isEmpty_iff.1 hempty
    rw [bind_run (piece_one_beside (by decide) hmarker hd hbeside)]
    rfl
  next hne =>
    obtain ⟨sign, c₂, hsign, h⟩ := bind_eq_ok.1 h
    obtain ⟨digits, c₃, hdigits, h⟩ := bind_eq_ok.1 h
    dsimp only at h
    rw [ite_run] at h
    split at h
    next => exact (fail_bind_ne_ok.1 h).elim
    next hne' =>
      obtain ⟨rfl, rfl⟩ := pure_eq_ok.1 h
      obtain ⟨hd₁, hd₃⟩ := hd.split
      obtain ⟨hd₁, hd₂⟩ := hd₁.split
      have hbeside₂ := (takeWhile_eq_ok hdigits).1.beside hd₃ hbeside
      have hbeside₁ := (piece_one_eq_ok hsign).1.beside hd₂ hbeside₂
      rw [bind_run (piece_one_beside (by decide) hmarker hd₁ hbeside₁), if_neg hne,
        bind_run (piece_one_beside (by decide) hsign hd₂ hbeside₂),
        bind_run (takeWhile_beside (by decide) hdigits hd₃ hbeside), if_neg hne']
      rfl

/-- A numeral is read to the same end. -/
theorem numberText_beside (h : numberText c = .ok text c') (hd : d.Passes text d')
    (hbeside : Beside c'.rest d'.rest) : numberText d = .ok text d' := by
  rw [numberText, Pattern.char] at h ⊢
  obtain ⟨whole, c₁, hwhole, h⟩ := bind_eq_ok.1 h
  obtain ⟨point, c₂, hpoint, h⟩ := bind_eq_ok.1 h
  -- Without a point no digits are taken after it.
  have hfraction : ∃ fraction c₃,
      (power >>= fun power => pure (whole ++ point ++ fraction ++ power)) c₃ = .ok text c' ∧
      c₂.Passes fraction c₃ ∧
      ∀ {d₂ d₃ : Cursor} {f : List Char → Scan (List Char)}, d₂.Passes fraction d₃ →
        Beside c₃.rest d₃.rest →
        (if point.isEmpty = true then pure [] >>= f else takeWhile Char.isDigit >>= f) d₂ =
          f fraction d₃ := by
    split at h
    next hempty =>
      refine ⟨[], c₂, h, .refl c₂, fun hd₂ _ => ?_⟩
      rw [if_pos hempty, hd₂.eq_skip]
      rfl
    next hne =>
      obtain ⟨fraction, c₃, hfraction, h⟩ := bind_eq_ok.1 h
      refine ⟨fraction, c₃, h, (takeWhile_eq_ok hfraction).1, fun hd₂ hbeside => ?_⟩
      rw [if_neg hne,
        bind_run (takeWhile_beside (by decide) hfraction hd₂ hbeside)]
  obtain ⟨fraction, c₃, h, hpass, hfraction⟩ := hfraction
  obtain ⟨exponent, c₄, hexponent, h⟩ := bind_eq_ok.1 h
  obtain ⟨rfl, rfl⟩ := pure_eq_ok.1 h
  obtain ⟨hd₁, hd₄⟩ := hd.split
  obtain ⟨hd₁, hd₃⟩ := hd₁.split
  obtain ⟨hd₁, hd₂⟩ := hd₁.split
  have hbeside₃ := (power_eq_ok hexponent).1.beside hd₄ hbeside
  have hbeside₂ := hpass.beside hd₃ hbeside₃
  have hbeside₁ := (piece_one_eq_ok hpoint).1.beside hd₂ hbeside₂
  rw [bind_run (takeWhile_beside (by decide) hwhole hd₁ hbeside₁),
    bind_run (piece_one_beside (by decide) hpoint hd₂ hbeside₂),
    hfraction hd₃ hbeside₃]
  exact bind_run (power_beside hexponent hd₄ hbeside)

/-- A number is read with the same spelling and value, and its span is where it stands. -/
theorem number_beside (hstart : Pattern.numberStart.isAtStart c.rest = true)
    (h : number c = .ok e c') : ∃ text decimal, text ≠ [] ∧ c.Passes text c' ∧
      e = .literal ⟨c.position, c'.position⟩ (String.ofList text) (.number (.ofDecimal decimal)) ∧
      ∀ {d d' : Cursor}, d.Passes text d' → Beside c'.rest d'.rest →
        Pattern.numberStart.isAtStart d.rest = true ∧
          number d = .ok (.literal ⟨d.position, d'.position⟩ (String.ofList text)
            (.number (.ofDecimal decimal))) d' := by
  rw [number, position_bind] at h
  obtain ⟨text, c₁, htext, h⟩ := bind_eq_ok.1 h
  cases hread : Decimal.read? text with
  | none =>
    rw [hread] at h
    exact (failAt_ne_ok.1 h).elim
  | some decimal =>
    rw [hread] at h
    dsimp only at h
    rw [position_bind] at h
    obtain ⟨rfl, rfl⟩ := pure_eq_ok.1 h
    obtain ⟨hpass, hnumeral⟩ := numberText_eq_ok hstart htext
    refine ⟨text, decimal, hnumeral.ne_nil, hpass, rfl, fun {d d'} hd hbeside => ⟨?_, ?_⟩⟩
    · rw [hd.rest_eq]
      exact Pattern.numberStart_of_isNumeral hnumeral
    · rw [number, position_bind, bind_run (numberText_beside htext hd hbeside), hread]
      rfl

/-- A property name is a word that is read wherever it stands. -/
theorem propertyName_beside (h : propertyName c = .ok e c') : ∃ word, word ≠ [] ∧
    c.Passes word c' ∧ leadingWord c.rest = word ∧
    e = .identifier ⟨c.position, c'.position⟩ (String.ofList word) ∧
      ∀ {d d' : Cursor}, d.Passes word d' → Beside c'.rest d'.rest →
        leadingWord d.rest = word ∧
          propertyName d =
            .ok (.identifier ⟨d.position, d'.position⟩ (String.ofList word)) d' := by
  obtain ⟨hne, rfl, rfl⟩ := propertyName_eq_ok.1 h
  have hpass := c.passes_leadingWord
  refine ⟨_, hne, hpass, rfl, by rw [hpass.position_eq], fun {d d'} hd hbeside => ?_⟩
  have hword : leadingWord d.rest = leadingWord c.rest := by
    rw [hd.rest_eq]
    refine leadingWord_beside ?_ hne hbeside
    rw [← hpass.rest_eq]
  refine ⟨hword, propertyName_eq_ok.2 ⟨hword ▸ hne, ?_, ?_⟩⟩
  · rw [hword, hd.position_eq]
  · rw [hword]
    exact hd.eq_skip

end Leaf

end Estree
