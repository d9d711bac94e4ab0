import Estree.Number.Layout
import Estree.Proofs.Number.Numeral
import Estree.Proofs.Number.Rounding

/-!
# Numbers are read back from their texts

A layout says how the digits of a number are written: how many zeros are written out, where the
point stands, how whole numbers end and exponents begin. Texts of trees and JSON have different
layouts, and what is said here is said of all that mark whole numbers and exponents as numerals may
(`IsNumeric`).

> `Layout.spells_absolute`: the text of a finite number is read as this number, but for the sign.

> `Layout.render_injective`: so a text has only one number.

All these texts spell the same digits at the same place, up to trailing zeros. `ofPlace` is the
decimal of digits at a place, and each of the three forms is shown to be read as it: digits with
zeros behind them (`spells_whole`), digits around a point (`spells_point`), and digits with an
exponent (`spells_scientific`). Rounding does not see the zeros (`ofPlace_append_zeros`), and the
digits are those of the shortest decimal, which is read as the number.

The second result adds the sign. A text without a sign is told from one with it by its first
character, which no numeral has (`head?_ne_minus_of_spells`).
-/

namespace Estree

namespace Decimal

/-! ## Digits at a place -/

/-- The decimal of which these are the digits, with so many of them before the point. -/
def ofPlace (digits : List Char) (point : Int) : Decimal :=
  ⟨ofDigits digits, point - digits.length⟩

/-- The text is read as the double. -/
def Spells (text : List Char) (x : Binary64) : Prop :=
  (read? text).map Binary64.ofDecimal = some x

/-- The number of digits in two parts. -/
theorem ofDigits_append (first second : List Char) :
    ofDigits (first ++ second) =
      ofDigits first * Nat.pow 10 second.length + ofDigits second := by
  rw [ofDigits, Nat.ofDigitChars_append, Nat.ofDigitChars_eq_ofDigitChars_zero, Nat.mul_comm]
  rfl

/-- Zeros are zero. -/
theorem ofDigits_replicate (count : Nat) : ofDigits (List.replicate count '0') = 0 := by
  rw [ofDigits, Nat.ofDigitChars_replicate_zero, Nat.mul_zero]

/-- Zeros in front change nothing. -/
theorem ofDigits_zeros_append (count : Nat) (digits : List Char) :
    ofDigits (List.replicate count '0' ++ digits) = ofDigits digits := by
  rw [ofDigits_append, ofDigits_replicate, Nat.zero_mul, Nat.zero_add]

/-- Each zero at the end makes the number ten times as large. -/
theorem ofDigits_append_zeros (digits : List Char) (count : Nat) :
    ofDigits (digits ++ List.replicate count '0') = ofDigits digits * Nat.pow 10 count := by
  rw [ofDigits_append, ofDigits_replicate, List.length_replicate, Nat.add_zero]

theorem ofDigits_toDigits (n : Nat) : ofDigits (Nat.toDigits 10 n) = n :=
  Nat.ofDigitChars_ten_toDigits

/-- Zeros at the end of digits can be left out. -/
theorem ofPlace_append_zeros (digits : List Char) (count : Nat) (point : Int) :
    ofPlace (digits ++ List.replicate count '0') point = (ofPlace digits point).shifted count := by
  have hexponent : point - ((digits.length + count : Nat) : Int) =
      point - digits.length - count := by
    omega
  rw [ofPlace, ofDigits_append_zeros, List.length_append, List.length_replicate, hexponent]
  rfl

/-! ## Reading -/

variable {text whole fraction power : List Char}

/-- Digits around a point, and nothing behind them. -/
theorem read?_of_splitDigits_nil (h : splitDigits text = (whole, fraction, []))
    (hne : whole ++ fraction ≠ []) :
    read? text = some ⟨ofDigits (whole ++ fraction), -fraction.length⟩ := by
  rw [read?, h]
  dsimp only
  rw [if_neg hne, Int.zero_sub]

/-- Digits around a point, and an exponent behind them. -/
theorem read?_of_splitDigits_power {exponent : Int}
    (h : splitDigits text = (whole, fraction, 'e' :: power)) (hne : whole ++ fraction ≠ [])
    (hpower : readExponent? power = some exponent) :
    read? text = some ⟨ofDigits (whole ++ fraction), exponent - fraction.length⟩ := by
  rw [read?, h]
  dsimp only
  rw [if_neg hne, if_pos (.inl rfl), hpower]
  rfl

theorem isDigit_of_mem_toDigits {n : Nat} {c : Char} (h : c ∈ Nat.toDigits 10 n) :
    c.isDigit = true :=
  Nat.isDigit_of_mem_toDigits (by decide) (by decide) h

/-- A power of ten is read back from its sign and digits. -/
theorem readExponent?_toDigits (n : Nat) :
    readExponent? (Nat.toDigits 10 n) = some (n : Int) ∧
      readExponent? ('+' :: Nat.toDigits 10 n) = some (n : Int) ∧
      readExponent? ('-' :: Nat.toDigits 10 n) = some (-n : Int) := by
  have hdigits : Nat.toDigits 10 n ≠ [] ∧ (Nat.toDigits 10 n).all Char.isDigit = true :=
    ⟨Nat.toDigits_ne_nil, List.all_eq_true.2 fun c hc => isDigit_of_mem_toDigits hc⟩
  have hvalue := ofDigits_toDigits n
  refine ⟨?_, ?_, ?_⟩
  · unfold readExponent?
    split
    next digits heq =>
      have hplus := isDigit_of_mem_toDigits (heq ▸ List.mem_cons_self)
      cases hplus
    next digits heq =>
      have hminus := isDigit_of_mem_toDigits (heq ▸ List.mem_cons_self)
      cases hminus
    next =>
      dsimp only
      rw [if_pos hdigits, hvalue, Int.one_mul]
  · simp only [readExponent?]
    rw [if_pos hdigits, hvalue, Int.one_mul]
  · simp only [readExponent?]
    rw [if_pos hdigits, hvalue, Int.neg_one_mul]

/-- A character that texts of numbers have. -/
def IsNumberChar (c : Char) : Prop :=
  c.isDigit = true ∨ c ∈ ['.', 'e', 'E', '+', '-']

/-- An exponent has characters of numbers only. -/
theorem isNumberChar_of_readExponent? {exponent : Int} (h : readExponent? text = some exponent) :
    ∀ c ∈ text, IsNumberChar c := by
  have hread {sign : Int} {digits : List Char}
      (h : (if digits ≠ [] ∧ digits.all Char.isDigit then some (sign * ofDigits digits) else none) =
        some exponent) : ∀ c ∈ digits, IsNumberChar c := by
    split at h
    · next hdigits => exact fun c hc => .inl (List.all_eq_true.1 hdigits.2 c hc)
    · cases h
  intro c hc
  unfold readExponent? at h
  dsimp only at h
  split at h
  · rcases List.mem_cons.1 hc with rfl | hc
    · exact .inr (by decide)
    · exact hread h c hc
  · rcases List.mem_cons.1 hc with rfl | hc
    · exact .inr (by decide)
    · exact hread h c hc
  · exact hread h c hc

/-- A text consists of digits, a point and digits if there is a point, and what is split off. -/
theorem mem_of_splitDigits (h : splitDigits text = (whole, fraction, power)) :
    ∀ c ∈ text, c.isDigit = true ∨ c = '.' ∨ c ∈ power := by
  intro c hc
  have hsplit := List.takeWhile_append_dropWhile (p := Char.isDigit) (l := text)
  rw [← hsplit] at hc
  unfold splitDigits at h
  dsimp only at h
  rcases List.mem_append.1 hc with hc | hc
  · exact .inl (List.all_eq_true.1 List.all_takeWhile c hc)
  · split at h
    · next rest heq =>
      cases h
      rw [heq] at hc
      rcases List.mem_cons.1 hc with rfl | hc
      · exact .inr (.inl rfl)
      · rw [← List.takeWhile_append_dropWhile (p := Char.isDigit) (l := rest)] at hc
        rcases List.mem_append.1 hc with hc | hc
        · exact .inl (List.all_eq_true.1 List.all_takeWhile c hc)
        · exact .inr (.inr hc)
    · cases h
      exact .inr (.inr hc)

/-- A text that is read as a number has only characters of numbers. -/
theorem isNumberChar_of_read? {decimal : Decimal} (h : read? text = some decimal) :
    ∀ c ∈ text, IsNumberChar c := by
  intro c hc
  obtain ⟨whole, fraction, rest, hsplit⟩ : ∃ whole fraction rest,
      splitDigits text = (whole, fraction, rest) := ⟨_, _, _, rfl⟩
  have hmem := mem_of_splitDigits hsplit c hc
  rw [read?, hsplit] at h
  dsimp only at h
  split at h
  · cases h
  · rcases hmem with hdigit | rfl | hrest
    · exact .inl hdigit
    · exact .inr (by decide)
    · cases rest with
      | nil => cases hrest
      | cons marker power =>
        dsimp only at h
        split at h
        · next hmarker =>
          obtain ⟨exponent, hexponent, -⟩ := Option.map_eq_some_iff.1 h
          rcases List.mem_cons.1 hrest with rfl | hpower
          · rcases hmarker with rfl | rfl
            · exact .inr (by decide)
            · exact .inr (by decide)
          · exact isNumberChar_of_readExponent? hexponent c hpower
        · cases h

end Decimal

theorem IsDigits.append {first second : List Char} (h : IsDigits first)
    (hsecond : ∀ c ∈ second, c.isDigit = true) : IsDigits (first ++ second) := by
  refine ⟨fun hnil => h.1 (List.append_eq_nil_iff.1 hnil).1, fun c hc => ?_⟩
  rcases List.mem_append.1 hc with hc | hc
  · exact h.2 c hc
  · exact hsecond c hc

theorem isDigit_of_mem_zeros {count : Nat} {c : Char} (h : c ∈ List.replicate count '0') :
    c.isDigit = true := by
  rw [List.eq_of_mem_replicate h]
  decide

namespace Layout

open Decimal

/-- Whole numbers end, and exponents begin, as numerals may. -/
structure IsNumeric (layout : Layout) : Prop where
  wholeEnding : layout.wholeEnding = [] ∨ layout.wholeEnding = ['.', '0']
  plusSign : layout.plusSign = [] ∨ layout.plusSign = ['+']

variable {layout : Layout} {digits : List Char}

/-- Digits of a whole number, and how it ends, spell that number. -/
theorem spells_whole (h : layout.IsNumeric) (hdigits : IsDigits digits) :
    Spells (digits ++ layout.wholeEnding) (Binary64.ofDecimal ⟨ofDigits digits, 0⟩) := by
  rcases h.wholeEnding with hending | hending
  · have hsplit : splitDigits (digits ++ []) = (digits, [], []) :=
      splitDigits_whole hdigits.2 nofun nofun
    rw [Spells, hending, read?_of_splitDigits_nil hsplit (by simpa using hdigits.1),
      List.append_nil]
    rfl
  · have hsplit : splitDigits (digits ++ '.' :: (['0'] ++ [])) = (digits, ['0'], []) :=
      splitDigits_point hdigits.2 (by decide) nofun
    have hshifted : (⟨ofDigits (digits ++ ['0']), -1⟩ : Decimal) =
        (⟨ofDigits digits, 0⟩ : Decimal).shifted 1 := by
      rw [show ['0'] = List.replicate 1 '0' from rfl, ofDigits_append_zeros]
      rfl
    rw [Spells, hending, show ['.', '0'] = '.' :: (['0'] ++ []) from rfl,
      read?_of_splitDigits_nil hsplit (by simp)]
    show some (Binary64.ofDecimal ⟨ofDigits (digits ++ ['0']), -1⟩) = _
    rw [hshifted, Binary64.ofDecimal_shifted]

/-- Digits around a point spell the decimal with the point there. -/
theorem spells_point {whole fraction : List Char} (hwhole : ∀ c ∈ whole, c.isDigit = true)
    (hfraction : IsDigits fraction) :
    Spells (whole ++ '.' :: fraction)
      (Binary64.ofDecimal ⟨ofDigits (whole ++ fraction), -fraction.length⟩) := by
  have hsplit : splitDigits (whole ++ '.' :: (fraction ++ [])) = (whole, fraction, []) :=
    splitDigits_point hwhole hfraction.2 nofun
  rw [List.append_nil] at hsplit
  rw [Spells, read?_of_splitDigits_nil hsplit (by simp [hfraction.1])]
  rfl

/-- Digits that are written out spell the number that they are at their place. -/
theorem spells_positional (h : layout.IsNumeric) (hdigits : IsDigits digits) (point : Int) :
    Spells (layout.positional digits point) (Binary64.ofDecimal (ofPlace digits point)) := by
  rw [positional]
  -- The point stands before the digits, after them or among them.
  split
  · next hle =>
    have hzeros : IsDigits (List.replicate (-point).toNat '0' ++ digits) := by
      refine ⟨by simp [hdigits.1], fun c hc => ?_⟩
      rcases List.mem_append.1 hc with hc | hc
      · exact isDigit_of_mem_zeros hc
      · exact hdigits.2 c hc
    have hzero : ∀ c ∈ ['0'], c.isDigit = true := by decide
    have hspells := spells_point hzero hzeros
    have hvalue : ofDigits (['0'] ++ (List.replicate (-point).toNat '0' ++ digits)) =
        ofDigits digits := by
      rw [show ['0'] = List.replicate 1 '0' from rfl, ofDigits_zeros_append, ofDigits_zeros_append]
    have hexponent : -((List.replicate (-point).toNat '0' ++ digits).length : Int) =
        point - digits.length := by
      rw [List.length_append, List.length_replicate]
      omega
    rw [hvalue, hexponent] at hspells
    exact hspells
  · next hpos =>
    split
    · next hle =>
      obtain ⟨count, hcount⟩ : ∃ count : Nat, point = digits.length + count :=
        ⟨point.toNat - digits.length, by omega⟩
      have hzeros : ∀ c ∈ List.replicate count '0', c.isDigit = true := fun c =>
        isDigit_of_mem_zeros
      have hspells := spells_whole h (hdigits.append hzeros)
      rw [show point.toNat - digits.length = count by omega]
      have hshifted : (⟨ofDigits (digits ++ List.replicate count '0'), 0⟩ : Decimal) =
          (ofPlace digits point).shifted count := by
        rw [← ofPlace_append_zeros, ofPlace, List.length_append, List.length_replicate, hcount]
        congr 1
        omega
      rw [hshifted, Binary64.ofDecimal_shifted] at hspells
      exact hspells
    · next hlt =>
      have hdrop : IsDigits (digits.drop point.toNat) := by
        refine ⟨?_, fun c hc => hdigits.2 c (List.mem_of_mem_drop hc)⟩
        intro hnil
        have hlength := congrArg List.length hnil
        rw [List.length_drop, List.length_nil] at hlength
        omega
      have htake : ∀ c ∈ digits.take point.toNat, c.isDigit = true := fun c hc =>
        hdigits.2 c (List.mem_of_mem_take hc)
      have hspells := spells_point htake hdrop
      rw [List.take_append_drop] at hspells
      have hexponent : -((digits.drop point.toNat).length : Int) = point - digits.length := by
        rw [List.length_drop]
        omega
      rw [hexponent] at hspells
      exact hspells

/-- A power of ten is read back from its text. -/
theorem readExponent?_sign (h : layout.IsNumeric) (exponent : Int) :
    readExponent? ((if exponent < 0 then ['-'] else layout.plusSign) ++
      Nat.toDigits 10 exponent.natAbs) = some exponent := by
  obtain ⟨hbare, hplus, hminus⟩ := readExponent?_toDigits exponent.natAbs
  by_cases hneg : exponent < 0
  · rw [if_pos hneg]
    have hvalue : (-exponent.natAbs : Int) = exponent := by omega
    rw [hvalue] at hminus
    exact hminus
  · have hvalue : (exponent.natAbs : Int) = exponent := by omega
    rw [if_neg hneg]
    rw [hvalue] at hbare hplus
    rcases h.plusSign with hsign | hsign
    · rw [hsign]
      exact hbare
    · rw [hsign]
      exact hplus

/-- Digits with a power of ten spell the number that they are at that place. -/
theorem spells_scientific (h : layout.IsNumeric) (hdigits : IsDigits digits) (exponent : Int) :
    Spells (layout.scientific digits exponent)
      (Binary64.ofDecimal (ofPlace digits (exponent + 1))) := by
  have hpower := readExponent?_sign h exponent
  rw [scientific]
  generalize (if exponent < 0 then ['-'] else layout.plusSign) ++
    Nat.toDigits 10 exponent.natAbs = power at hpower
  obtain ⟨first, rest, rfl⟩ := List.exists_cons_of_ne_nil hdigits.1
  have hfirst : ∀ c ∈ [first], c.isDigit = true := by
    intro c hc
    rw [List.mem_singleton.1 hc]
    exact hdigits.2 first List.mem_cons_self
  have hmarker : ∀ x ∈ ('e' :: power).head?, x.isDigit = false := by
    intro x hx
    cases hx
    decide
  -- One digit stands without a point, several with one behind the first.
  cases rest with
  | nil =>
    have hsplit : splitDigits ([first] ++ 'e' :: power) = ([first], [], 'e' :: power) :=
      splitDigits_whole hfirst hmarker (by simp)
    have hexponent : exponent - (([] : List Char).length : Int) =
        exponent + 1 - ([first].length : Int) := by
      simp
    show (read? ([first] ++ 'e' :: power)).map _ = _
    rw [read?_of_splitDigits_power hsplit (by simp) hpower, hexponent]
    rfl
  | cons second rest =>
    have hrest : ∀ c ∈ second :: rest, c.isDigit = true := fun c hc =>
      hdigits.2 c (List.mem_cons_of_mem _ hc)
    have hsplit : splitDigits ([first] ++ '.' :: ((second :: rest) ++ 'e' :: power)) =
        ([first], second :: rest, 'e' :: power) :=
      splitDigits_point hfirst hrest hmarker
    show (read? ([first] ++ '.' :: ((second :: rest) ++ 'e' :: power))).map _ = _
    have hexponent : exponent - ((second :: rest).length : Int) =
        exponent + 1 - ((first :: second :: rest).length : Int) := by
      rw [List.length_cons (a := first)]
      omega
    rw [read?_of_splitDigits_power hsplit (by simp) hpower, hexponent]
    rfl

/-! ## Numbers -/

/-- Digits without the zeros at their end. -/
theorem exists_append_zeros (digits : List Char) :
    ∃ count, digits =
      (digits.reverse.dropWhile (· == '0')).reverse ++ List.replicate count '0' := by
  refine ⟨(digits.reverse.takeWhile (· == '0')).length, ?_⟩
  have hzeros : digits.reverse.takeWhile (· == '0') =
      List.replicate (digits.reverse.takeWhile (· == '0')).length '0' :=
    List.eq_replicate_of_mem fun c hc => eq_of_beq (List.all_eq_true.1 List.all_takeWhile c hc)
  have hsplit := List.takeWhile_append_dropWhile (p := (· == '0')) (l := digits.reverse)
  have hreverse := congrArg List.reverse hsplit
  rw [List.reverse_append, List.reverse_reverse, hzeros, List.reverse_replicate] at hreverse
  exact hreverse.symm

/-- The shortest decimal of a number that is not zero has other digits than zeros. -/
theorem significand_shortest_ne_zero (tie : Tie) {x : Binary64} (hfinite : x.isFinite = true)
    (hunits : x.units ≠ 0) : (x.shortest tie).significand ≠ 0 := by
  intro hzero
  have hread := Binary64.ofDecimal_shortest tie hfinite
  rw [Binary64.ofDecimal, if_pos hzero] at hread
  have hmagnitude := congrArg Binary64.magnitude hread
  rw [Binary64.magnitude_ofMagnitude (by decide),
    Binary64.magnitude_ofMagnitude x.magnitude_lt] at hmagnitude
  exact hunits (x.units_eq_zero_iff.2 hmagnitude.symm)

/-- The digits of a decimal, with or without the zeros at their end, are read as it. -/
theorem ofDecimal_ofPlace {decimal : Decimal} {significant : List Char} {count : Nat}
    (h : Nat.toDigits 10 decimal.significand = significant ++ List.replicate count '0') :
    Binary64.ofDecimal
        (ofPlace significant (decimal.exponent + (Nat.toDigits 10 decimal.significand).length)) =
      Binary64.ofDecimal decimal := by
  have hdecimal : ofPlace (Nat.toDigits 10 decimal.significand)
      (decimal.exponent + (Nat.toDigits 10 decimal.significand).length) = decimal := by
    rw [ofPlace, ofDigits_toDigits, Int.add_sub_cancel]
  rw [← Binary64.ofDecimal_shifted _ count, ← ofPlace_append_zeros, ← h, hdecimal]

/-- What is left without trailing zeros has a digit if the number is not zero. -/
theorem isDigits_significant {n count : Nat} {significant : List Char} (hn : n ≠ 0)
    (h : Nat.toDigits 10 n = significant ++ List.replicate count '0') : IsDigits significant := by
  refine ⟨?_, fun c hc => isDigit_of_mem_toDigits (h ▸ List.mem_append_left _ hc)⟩
  intro hnil
  have hvalue := ofDigits_toDigits n
  rw [h, hnil, List.nil_append, ofDigits_replicate] at hvalue
  exact hn hvalue.symm

/-- The text of a finite number spells it, but for the sign. -/
theorem spells_absolute (h : layout.IsNumeric) {x : Binary64} (hfinite : x.isFinite = true) :
    Spells (layout.absolute x) (Binary64.ofMagnitude x.magnitude) := by
  rw [absolute]
  split
  · next hzero =>
    have hdigits : IsDigits ['0'] := ⟨by decide, by decide⟩
    have hspells := spells_whole h hdigits
    rw [x.units_eq_zero_iff.1 hzero]
    exact hspells
  · next hunits =>
    rw [← Binary64.ofDecimal_shortest layout.tie hfinite]
    have hne := significand_shortest_ne_zero layout.tie hfinite hunits
    generalize x.shortest layout.tie = decimal at hne ⊢
    dsimp only
    obtain ⟨count, hcount⟩ := exists_append_zeros (Nat.toDigits 10 decimal.significand)
    have hdigits := isDigits_significant hne hcount
    rw [← ofDecimal_ofPlace hcount]
    split
    · exact spells_positional h hdigits _
    · have hspells := spells_scientific h hdigits
        (decimal.exponent + (Nat.toDigits 10 decimal.significand).length - 1)
      rw [Int.sub_add_cancel] at hspells
      exact hspells

/-- Digits that are written out are in the text, or there is a zero before the point. -/
theorem exists_isDigit_mem_positional (layout : Layout) (h : IsDigits digits) (point : Int) :
    ∃ c ∈ layout.positional digits point, c.isDigit = true := by
  obtain ⟨first, rest, rfl⟩ := List.exists_cons_of_ne_nil h.1
  have hfirst : first.isDigit = true := h.2 first List.mem_cons_self
  rw [positional]
  split
  · exact ⟨'0', List.mem_cons_self, rfl⟩
  · next hpos =>
    refine ⟨first, ?_, hfirst⟩
    split
    · simp
    · obtain ⟨before, hbefore⟩ : ∃ before, point.toNat = before + 1 :=
        ⟨_, (Nat.succ_pred_eq_of_pos (by omega)).symm⟩
      rw [hbefore, List.take_succ_cons]
      exact List.mem_cons_self

/-- Every text of a finite number has a digit. -/
theorem exists_isDigit_mem_absolute (layout : Layout) {x : Binary64} (hfinite : x.isFinite = true) :
    ∃ c ∈ layout.absolute x, c.isDigit = true := by
  rw [absolute]
  split
  · exact ⟨'0', List.mem_cons_self, rfl⟩
  · next hunits =>
    have hne := significand_shortest_ne_zero layout.tie hfinite hunits
    dsimp only
    obtain ⟨count, hcount⟩ :=
      exists_append_zeros (Nat.toDigits 10 (x.shortest layout.tie).significand)
    have hdigits := isDigits_significant hne hcount
    split
    · exact layout.exists_isDigit_mem_positional hdigits _
    · obtain ⟨first, rest, hcons⟩ := List.exists_cons_of_ne_nil hdigits.1
      rw [hcons] at hdigits ⊢
      exact ⟨first, by simp [scientific], hdigits.2 first List.mem_cons_self⟩

/-- Where whole numbers end with a point and a zero, every text has a point or an exponent. -/
theorem exists_not_isDigit_mem_absolute (layout : Layout) (h : layout.wholeEnding = ['.', '0'])
    (x : Binary64) : ∃ c ∈ layout.absolute x, c.isDigit = false := by
  have hpoint : ('.').isDigit = false := rfl
  have hmarker : ('e').isDigit = false := rfl
  rw [absolute]
  split
  · exact ⟨'.', by simp [h], hpoint⟩
  · dsimp only
    split
    · rw [positional]
      refine ⟨'.', ?_, hpoint⟩
      split
      · exact List.mem_cons_of_mem _ List.mem_cons_self
      · split
        · simp [h]
        · simp
    · rw [scientific]
      exact ⟨'e', by simp, hmarker⟩

/-- A sign where there is one, and the text of the number without it. -/
theorem toList_render (layout : Layout) {x : Binary64} (h : x.isFinite = true) :
    (layout.render x).toList = (if x.isNegative then ['-'] else []) ++ layout.absolute x := by
  have hnumber : ¬ x.isNaN = true := by
    have hlt : x.magnitude < Binary64.infinityMagnitude := of_decide_eq_true h
    rw [Binary64.isNaN, decide_eq_true_eq]
    omega
  rw [render, if_neg hnumber, if_pos h, String.toList_ofList]

/-- A text that is read as a number without sign is not read with a sign before it. -/
theorem head?_ne_minus_of_spells {text : List Char} {x : Binary64} (h : Spells text x) :
    text.head? ≠ some '-' := by
  intro hhead
  obtain ⟨rest, rfl⟩ := List.head?_eq_some_iff.1 hhead
  have hnone : read? ('-' :: rest) = none := rfl
  rw [Spells, hnone] at h
  cases h

/-- The text of a finite number has only characters of numbers, and there are some. -/
theorem isNumberChar_of_mem_render (h : layout.IsNumeric) {x : Binary64} (hx : x.isFinite = true) :
    (layout.render x).toList ≠ [] ∧ ∀ c ∈ (layout.render x).toList, IsNumberChar c := by
  obtain ⟨decimal, hread, -⟩ := Option.map_eq_some_iff.1 (spells_absolute h hx)
  rw [toList_render layout hx]
  refine ⟨fun hnil => ?_, fun c hc => ?_⟩
  · rw [(List.append_eq_nil_iff.1 hnil).2] at hread
    cases hread
  · rcases List.mem_append.1 hc with hc | hc
    · split at hc
      · rw [List.mem_singleton.1 hc]
        exact .inr (by decide)
      · cases hc
    · exact isNumberChar_of_read? hread c hc

/-- No two finite numbers have the same text. -/
theorem render_injective (h : layout.IsNumeric) {x y : Binary64} (hx : x.isFinite = true)
    (hy : y.isFinite = true) (htext : (layout.render x).toList = (layout.render y).toList) :
    x = y := by
  have hspellsX := spells_absolute h hx
  have hspellsY := spells_absolute h hy
  have hheadX := head?_ne_minus_of_spells hspellsX
  have hheadY := head?_ne_minus_of_spells hspellsY
  rw [toList_render layout hx, toList_render layout hy] at htext
  -- The texts begin with the same sign, since what stands after it never begins with one.
  have hsame : x.isNegative = y.isNegative ∧ layout.absolute x = layout.absolute y := by
    cases hnegX : x.isNegative <;> cases hnegY : y.isNegative <;> rw [hnegX, hnegY] at htext
    · exact ⟨rfl, htext⟩
    · refine absurd ?_ hheadX
      rw [show layout.absolute x = '-' :: layout.absolute y from htext]
      rfl
    · refine absurd ?_ hheadY
      rw [← show '-' :: layout.absolute x = layout.absolute y from htext]
      rfl
    · exact ⟨rfl, (List.cons.inj htext).2⟩
  rw [hsame.2] at hspellsX
  have hread := Option.some.inj (hspellsX.symm.trans hspellsY)
  have hmagnitude := congrArg Binary64.magnitude hread
  rw [Binary64.magnitude_ofMagnitude x.magnitude_lt,
    Binary64.magnitude_ofMagnitude y.magnitude_lt] at hmagnitude
  exact Binary64.ext_magnitude hmagnitude hsame.1

end Layout

/-- The text of a finite number without sign in source text spells this number. -/
theorem Binary64.spells_sourceText {x : Binary64} (hfinite : x.isFinite = true)
    (hsign : x.isNegative = false) : Decimal.Spells x.sourceText.toList x := by
  have hnumeric : Layout.plain.IsNumeric := ⟨.inl rfl, .inl rfl⟩
  have hvalue : ofMagnitude x.magnitude = x := by
    refine ext_magnitude (magnitude_ofMagnitude x.magnitude_lt) ?_
    rw [hsign, isNegative, ofMagnitude, decide_eq_false_iff_not]
    have hlt := x.magnitude_lt
    have hsize : Nat.pow 2 63 ≤ UInt64.size := by decide
    rw [UInt64.toNat_ofNat_of_lt' (by omega)]
    omega
  rw [sourceText]
  split
  · next hwhole =>
    dsimp only
    have hnone : ¬(x.isNegative = true ∧ x.units / unitsPerOne ≠ 0) := by
      simp [hsign]
    have hdigits : IsDigits (Nat.toDigits 10 (x.units / unitsPerOne)) :=
      ⟨Nat.toDigits_ne_nil, fun c hc => Decimal.isDigit_of_mem_toDigits hc⟩
    have hspells := Layout.spells_whole hnumeric hdigits
    rw [Decimal.ofDigits_toDigits, ofDecimal_whole hwhole.1, hvalue] at hspells
    rw [if_neg hnone, String.toList_ofList]
    exact (List.append_nil (Nat.toDigits 10 (x.units / unitsPerOne))) ▸ hspells
  · have hspells := Layout.spells_absolute hnumeric hfinite
    rw [hvalue] at hspells
    rw [Layout.toList_render _ hfinite, hsign]
    exact hspells

/-- The text of a finite number in source text has a digit. -/
theorem Binary64.exists_isDigit_mem_sourceText {x : Binary64} (hfinite : x.isFinite = true) :
    ∃ c ∈ x.sourceText.toList, c.isDigit = true := by
  rw [sourceText]
  split
  · dsimp only
    obtain ⟨first, hfirst⟩ :=
      List.exists_mem_of_ne_nil (Nat.toDigits 10 (x.units / unitsPerOne)) Nat.toDigits_ne_nil
    rw [String.toList_ofList]
    exact ⟨first, List.mem_append_right _ hfirst, Decimal.isDigit_of_mem_toDigits hfirst⟩
  · obtain ⟨c, hc, hdigit⟩ := Layout.plain.exists_isDigit_mem_absolute hfinite
    rw [Layout.toList_render _ hfinite]
    exact ⟨c, List.mem_append_right _ hc, hdigit⟩

end Estree
