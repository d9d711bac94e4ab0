import Estree.Proofs.Grammar.Scan

/-!
# Numerals

The grammar of numeric literals is `(digits [. digits*] | . digits) [(e|E) [+|-] digits]`, and it is
what the reading of numbers accepts.

> `number_run`: every numeral that the text does not go on with is read as a literal.

> `number_eq_ok`: whatever is read as a number is a numeral.

The reading does not know the grammar. It takes digits, a point and digits, each of which may be
missing, and then it looks for a power of ten. The mantissa that it comes to is the longest one that
the text begins with (`leadingMantissa`), for which there are three things to show: what is taken is
a mantissa where a number starts (`isMantissa_leadingMantissa`), no longer one is there
(`length_le_leadingMantissa`), and a numeral that ends there is not read past
(`leadingMantissa_append`).

For the power it matters whether there are digits behind the marker. With digits it belongs to the
numeral (`power_run`), and without any it is a fault (`power_fault`), as no text may go on so. The
value is that of the same characters read on their own: numerals are just the texts that are
decimals (`read?_isSome_of_isNumeral`, `isNumeral_of_read?`), for digits with a point are split in
one way only (`splitDigits_whole`, `splitDigits_point`).
-/

namespace Estree

/-- At least one digit, and nothing else. -/
def IsDigits (text : List Char) : Prop :=
  text ≠ [] ∧ ∀ c ∈ text, c.isDigit = true

/-- `digits [. digits*]` or `. digits` -/
inductive IsMantissa : List Char → Prop
  | whole {digits : List Char} : IsDigits digits → IsMantissa digits
  | pointed {digits fraction : List Char} :
    IsDigits digits → (∀ c ∈ fraction, c.isDigit = true) → IsMantissa (digits ++ '.' :: fraction)
  | fraction {digits : List Char} : IsDigits digits → IsMantissa ('.' :: digits)

/-- `(e|E) [+|-] digits` -/
inductive IsPower : List Char → Prop
  | unsigned {marker : Char} {digits : List Char} :
    marker = 'e' ∨ marker = 'E' → IsDigits digits → IsPower (marker :: digits)
  | signed {marker sign : Char} {digits : List Char} :
    marker = 'e' ∨ marker = 'E' → sign = '+' ∨ sign = '-' → IsDigits digits →
    IsPower (marker :: sign :: digits)

/-- The marker of a power of ten, and its sign if there is one, with no digit behind them. -/
inductive IsDanglingPower : (begun rest : List Char) → Prop
  | unsigned {marker : Char} {rest : List Char} :
    marker = 'e' ∨ marker = 'E' →
    (∀ x ∈ rest.head?, x.isDigit = false ∧ x ≠ '+' ∧ x ≠ '-') → IsDanglingPower [marker] rest
  | signed {marker sign : Char} {rest : List Char} :
    marker = 'e' ∨ marker = 'E' → sign = '+' ∨ sign = '-' →
    (∀ x ∈ rest.head?, x.isDigit = false) → IsDanglingPower [marker, sign] rest

/-- The spelling of a number: a mantissa, and a power of ten if there is one. -/
def IsNumeral (text : List Char) : Prop :=
  ∃ mantissa power, IsMantissa mantissa ∧ (power = [] ∨ IsPower power) ∧ text = mantissa ++ power

/-- Whether a text that follows a numeral leaves it as it is. -/
def EndsNumeral (numeral rest : List Char) : Prop :=
  (∀ x ∈ rest.head?, Text.isIdentifierPart x = false) ∧
    (numeral.all Char.isDigit = true → rest.head? ≠ some '.')

/-- Digits begin with a digit. -/
theorem IsDigits.isDigit_of_mem_head? {digits rest : List Char} (h : IsDigits digits) {x : Char}
    (hx : x ∈ (digits ++ rest).head?) : x.isDigit = true := by
  cases digits with
  | nil => exact absurd rfl h.1
  | cons y ys =>
    cases hx
    exact h.2 _ (List.mem_cons_self ..)

/-- A power of ten begins with its marker. -/
theorem IsPower.eq_marker_of_mem_head? {power rest : List Char} (h : IsPower power) {x : Char}
    (hx : x ∈ (power ++ rest).head?) : x = 'e' ∨ x = 'E' := by
  cases h with
  | unsigned hmarker | signed hmarker =>
    cases hx
    exact hmarker

/-- Digits alone, or a point with digits on at least one side of it. -/
theorem IsMantissa.cases_point {mantissa : List Char} (h : IsMantissa mantissa) :
    IsDigits mantissa ∨ ∃ digits fraction, (∀ x ∈ digits, x.isDigit = true) ∧
      (∀ x ∈ fraction, x.isDigit = true) ∧ mantissa = digits ++ '.' :: fraction := by
  cases h with
  | whole hdigits => exact Or.inl hdigits
  | pointed hdigits hfraction => exact Or.inr ⟨_, _, hdigits.2, hfraction, rfl⟩
  | fraction hdigits => exact Or.inr ⟨[], _, by simp, hdigits.2, rfl⟩

theorem IsPower.ne_nil {power : List Char} (h : IsPower power) : power ≠ [] := by
  cases h <;> exact List.cons_ne_nil _ _

/-- Behind a mantissa there is no marker, or a power of ten with all its digits, or one without
any. -/
theorem power_cases (text : List Char) :
    (∀ x ∈ text.head?, x ≠ 'e' ∧ x ≠ 'E') ∨
      (∃ power rest, text = power ++ rest ∧ IsPower power ∧
        ∀ x ∈ rest.head?, x.isDigit = false) ∨
      ∃ begun rest, text = begun ++ rest ∧ IsDanglingPower begun rest := by
  rcases text with _ | ⟨marker, after⟩
  · exact .inl nofun
  rcases (Decidable.em (marker = 'e' ∨ marker = 'E')).symm with hmarker | hmarker
  · refine .inl fun x hx => ?_
    obtain rfl := Option.some.inj hx
    exact ⟨fun h => hmarker (.inl h), fun h => hmarker (.inr h)⟩
  right
  have hdigits : ∀ behind : List Char, IsDigits (behind.takeWhile Char.isDigit) ∧
      (∀ x ∈ (behind.dropWhile Char.isDigit).head?, x.isDigit = false) ∨
        ∀ x ∈ behind.head?, x.isDigit = false := by
    intro behind
    by_cases hnone : behind.takeWhile Char.isDigit = []
    · refine .inr fun x hx => ?_
      rw [← List.takeWhile_append_dropWhile (p := Char.isDigit) (l := behind), hnone] at hx
      exact Text.not_of_mem_head?_dropWhile hx
    · exact .inl ⟨⟨hnone, fun x hx => List.all_eq_true.1 List.all_takeWhile x hx⟩,
        fun x hx => Text.not_of_mem_head?_dropWhile hx⟩
  by_cases hsign : ∃ sign ∈ after.head?, sign = '+' ∨ sign = '-'
  · obtain ⟨sign, hhead, hsign⟩ := hsign
    obtain ⟨behind, rfl⟩ := List.head?_eq_some_iff.1 hhead
    rcases hdigits behind with ⟨hdigits, hrest⟩ | hnone
    · refine .inl ⟨marker :: sign :: behind.takeWhile Char.isDigit, _, ?_,
        .signed hmarker hsign hdigits, hrest⟩
      simp
    · exact .inr ⟨[marker, sign], behind, rfl, .signed hmarker hsign hnone⟩
  · rcases hdigits after with ⟨hdigits, hrest⟩ | hnone
    · refine .inl ⟨marker :: after.takeWhile Char.isDigit, _, ?_, .unsigned hmarker hdigits, hrest⟩
      simp
    · refine .inr ⟨[marker], after, rfl, .unsigned hmarker fun x hx => ⟨hnone x hx, ?_, ?_⟩⟩
      · exact fun h => hsign ⟨x, hx, .inl h⟩
      · exact fun h => hsign ⟨x, hx, .inr h⟩

/-- A numeral has a character. -/
theorem IsNumeral.ne_nil {text : List Char} (h : IsNumeral text) : text ≠ [] := by
  obtain ⟨mantissa, power, hmantissa, -, rfl⟩ := h
  rcases hmantissa.cases_point with hdigits | ⟨digits, fraction, -, -, rfl⟩
  · exact List.append_ne_nil_of_left_ne_nil hdigits.1 _
  · simp

/-- The value of a decimal is a number without a sign; one that is too large is infinite. -/
theorem Binary64.ofDecimal_sound (decimal : Decimal) :
    (Binary64.ofDecimal decimal).isNaN = false ∧
      (Binary64.ofDecimal decimal).isNegative = false := by
  have hmagnitude : ∀ m ≤ infinityMagnitude,
      (ofMagnitude m).isNaN = false ∧ (ofMagnitude m).isNegative = false := by
    intro m hm
    have hbound : infinityMagnitude < Nat.pow 2 63 := by decide
    have hbits : (UInt64.ofNat m).toNat = m := UInt64.toNat_ofNat_of_lt' (by
      have hsize : Nat.pow 2 63 ≤ UInt64.size := by decide
      omega)
    refine ⟨?_, ?_⟩
    · rw [isNaN, magnitude, ofMagnitude, hbits, decide_eq_false_iff_not]
      have hmod : m % Nat.pow 2 63 ≤ m := Nat.mod_le _ _
      omega
    · rw [isNegative, ofMagnitude, hbits, decide_eq_false_iff_not]
      omega
  rw [ofDecimal]
  split
  next => exact hmagnitude 0 (Nat.zero_le _)
  next => exact hmagnitude _ (Nat.min_le_right _ _)

/-! ## Numerals as decimals -/

namespace Decimal

/-- Digits without a point are whole. -/
theorem splitDigits_whole {whole rest : List Char} (hwhole : ∀ c ∈ whole, c.isDigit = true)
    (hdigit : ∀ x ∈ rest.head?, x.isDigit = false) (hpoint : rest.head? ≠ some '.') :
    splitDigits (whole ++ rest) = (whole, [], rest) := by
  rw [splitDigits, Text.takeWhile_append hwhole hdigit, Text.dropWhile_append hwhole hdigit]
  cases rest with
  | nil => rfl
  | cons x xs =>
    have hx : x ≠ '.' := fun hx => hpoint (hx ▸ rfl)
    split
    next heq =>
      cases heq
      exact absurd rfl hx
    next => rfl

/-- Digits around a point are split there. -/
theorem splitDigits_point {whole fraction rest : List Char}
    (hwhole : ∀ c ∈ whole, c.isDigit = true) (hfraction : ∀ c ∈ fraction, c.isDigit = true)
    (hdigit : ∀ x ∈ rest.head?, x.isDigit = false) :
    splitDigits (whole ++ '.' :: (fraction ++ rest)) = (whole, fraction, rest) := by
  have hpoint : ∀ x ∈ ('.' :: (fraction ++ rest)).head?, x.isDigit = false := by
    intro x hx
    cases hx
    decide
  rw [splitDigits, Text.takeWhile_append hwhole hpoint, Text.dropWhile_append hwhole hpoint]
  show (whole, (fraction ++ rest).takeWhile _, (fraction ++ rest).dropWhile _) = _
  rw [Text.takeWhile_append hfraction hdigit, Text.dropWhile_append hfraction hdigit]

/-- What stands behind the marker of a power is an exponent. -/
theorem readExponent?_isSome_of_isPower {marker : Char} {text : List Char}
    (h : IsPower (marker :: text)) : (readExponent? text).isSome = true := by
  have hread : ∀ {digits : List Char}, IsDigits digits → digits ≠ [] ∧ digits.all Char.isDigit := by
    intro digits hdigits
    exact ⟨hdigits.1, List.all_eq_true.2 hdigits.2⟩
  cases h with
  | unsigned hmarker hdigits =>
    -- A digit comes first, which is neither of the signs.
    obtain ⟨hne, hall⟩ := hread hdigits
    cases text with
    | nil => exact absurd rfl hne
    | cons x xs =>
      have hx : x.isDigit = true := hdigits.2 x (List.mem_cons_self ..)
      unfold readExponent?
      split
      next heq =>
        cases heq
        exact absurd hx (by decide)
      next heq =>
        cases heq
        exact absurd hx (by decide)
      next => simp [hall]
  | signed hmarker hsign hdigits =>
    obtain ⟨hne, hall⟩ := hread hdigits
    rcases hsign with rfl | rfl
    · simp only [readExponent?]
      simp [hne, hall]
    · simp only [readExponent?]
      simp [hne, hall]

/-- Every numeral spells a decimal. -/
theorem read?_isSome_of_isNumeral {text : List Char} (h : IsNumeral text) :
    (read? text).isSome = true := by
  obtain ⟨mantissa, power, hmantissa, hpower, rfl⟩ := h
  -- Neither a digit nor a point begins a power of ten.
  have hhead : ∀ x ∈ power.head?, x.isDigit = false ∧ x ≠ '.' := by
    intro x hx
    rcases hpower with rfl | hpower
    · cases hx
    · rw [← List.append_nil power] at hx
      rcases hpower.eq_marker_of_mem_head? hx with rfl | rfl <;> decide
  have hdigit : ∀ x ∈ power.head?, x.isDigit = false := fun x hx => (hhead x hx).1
  have hsplit : ∃ whole fraction, whole ++ fraction ≠ [] ∧
      splitDigits (mantissa ++ power) = (whole, fraction, power) := by
    cases hmantissa with
    | whole hdigits =>
      refine ⟨mantissa, [], by simpa using hdigits.1, splitDigits_whole hdigits.2 hdigit ?_⟩
      intro hpoint
      exact (hhead '.' hpoint).2 rfl
    | @pointed digits fraction hdigits hfraction =>
      refine ⟨digits, fraction, by simp [hdigits.1], ?_⟩
      rw [List.append_assoc, List.cons_append]
      exact splitDigits_point hdigits.2 hfraction hdigit
    | @fraction digits hdigits =>
      refine ⟨[], digits, by simpa using hdigits.1, ?_⟩
      exact @splitDigits_point [] _ _ (by simp) hdigits.2 hdigit
  obtain ⟨whole, fraction, hne, hsplit⟩ := hsplit
  rw [read?, hsplit]
  dsimp only
  rw [if_neg hne]
  rcases hpower with rfl | hpower
  · rfl
  · cases power with
    | nil => cases hpower
    | cons marker text =>
      have hmarker : marker = 'e' ∨ marker = 'E' :=
        @IsPower.eq_marker_of_mem_head? _ [] hpower _ rfl
      dsimp only
      rw [if_pos hmarker, Option.isSome_map]
      exact readExponent?_isSome_of_isPower hpower

/-- What is read as a power of ten after a marker is one. -/
theorem isPower_of_readExponent? {marker : Char} {text : List Char} {exponent : Int}
    (hmarker : marker = 'e' ∨ marker = 'E') (h : readExponent? text = some exponent) :
    IsPower (marker :: text) := by
  have hread {sign : Int} {digits : List Char}
      (h : (if digits ≠ [] ∧ digits.all Char.isDigit then some (sign * ofDigits digits) else none) =
        some exponent) : IsDigits digits := by
    obtain ⟨hdigits, -⟩ := (Option.ite_none_right_eq_some ..).1 h
    exact ⟨hdigits.1, List.all_eq_true.1 hdigits.2⟩
  unfold readExponent? at h
  dsimp only at h
  split at h
  next => exact .signed hmarker (.inl rfl) (hread h)
  next => exact .signed hmarker (.inr rfl) (hread h)
  next => exact .unsigned hmarker (hread h)

/-- Digits with an optional point among them are a mantissa in front of what follows them. -/
theorem isMantissa_of_splitDigits {text whole fraction rest : List Char}
    (h : splitDigits text = (whole, fraction, rest)) (hne : whole ++ fraction ≠ []) :
    ∃ mantissa, IsMantissa mantissa ∧ text = mantissa ++ rest := by
  have hsplit := List.takeWhile_append_dropWhile (p := Char.isDigit) (l := text)
  have hall : ∀ (text : List Char), ∀ x ∈ text.takeWhile Char.isDigit, x.isDigit = true :=
    fun text x hx => List.all_eq_true.1 List.all_takeWhile x hx
  have hdigits := hall text
  unfold splitDigits at h
  dsimp only at h
  split at h
  next behind hpoint =>
    obtain ⟨rfl, hfraction, rfl⟩ : text.takeWhile Char.isDigit = whole ∧
        behind.takeWhile Char.isDigit = fraction ∧ behind.dropWhile Char.isDigit = rest := by
      simpa using h
    have hbehind : text = text.takeWhile Char.isDigit ++ '.' :: fraction ++
        behind.dropWhile Char.isDigit := by
      rw [List.append_assoc, List.cons_append, ← hfraction, List.takeWhile_append_dropWhile,
        ← hpoint, hsplit]
    refine ⟨_, ?_, hbehind⟩
    by_cases hnone : text.takeWhile Char.isDigit = []
    · rw [hnone] at hne ⊢
      exact .fraction ⟨hne, hfraction ▸ hall behind⟩
    · exact .pointed ⟨hnone, hdigits⟩ (hfraction ▸ hall behind)
  next =>
    cases h
    exact ⟨_, .whole ⟨by simpa using hne, hdigits⟩, hsplit.symm⟩

/-- What is read as a decimal is a numeral. -/
theorem isNumeral_of_read? {text : List Char} {decimal : Decimal} (h : read? text = some decimal) :
    IsNumeral text := by
  obtain ⟨whole, fraction, rest, hsplit⟩ : ∃ whole fraction rest,
      splitDigits text = (whole, fraction, rest) := ⟨_, _, _, rfl⟩
  rw [read?, hsplit] at h
  dsimp only at h
  obtain ⟨hne, h⟩ := (Option.ite_none_left_eq_some ..).1 h
  obtain ⟨mantissa, hmantissa, rfl⟩ := isMantissa_of_splitDigits hsplit hne
  cases rest with
  | nil => exact ⟨mantissa, [], hmantissa, .inl rfl, rfl⟩
  | cons marker power =>
    obtain ⟨hmarker, h⟩ := (Option.ite_none_right_eq_some ..).1 h
    obtain ⟨exponent, hexponent, -⟩ := Option.map_eq_some_iff.1 h
    exact ⟨mantissa, _, hmantissa, .inr (isPower_of_readExponent? hmarker hexponent), rfl⟩

end Decimal

/-! ## Reading numerals -/

namespace Pattern

variable {text : List Char}

/-- A number starts with a digit, or with a point and a digit. -/
theorem numberStart_isAtStart :
    numberStart.isAtStart text = true ↔
      (∃ d rest, text = d :: rest ∧ d.isDigit = true) ∨
        ∃ d rest, text = '.' :: d :: rest ∧ d.isDigit = true := by
  rw [isAtStart, piece]
  rcases text with _ | ⟨x, _ | ⟨y, ys⟩⟩
  · simp [numberStart, firstOf, one, followedBy]
  · by_cases hx : x.isDigit = true
    · simp [numberStart, firstOf, one, hx]
    · by_cases hpoint : x = '.'
      · simp [numberStart, firstOf, one, followedBy, char, hpoint]
      · simp [numberStart, firstOf, one, followedBy, char, hpoint, hx]
  · by_cases hx : x.isDigit = true
    · simp [numberStart, firstOf, one, hx]
    · by_cases hpoint : x = '.'
      · subst hpoint
        by_cases hy : y.isDigit = true <;> simp [numberStart, firstOf, one, followedBy, char, hy]
      · simp [numberStart, firstOf, one, followedBy, char, hpoint, hx]

/-- Where a numeral stands, a number starts. -/
theorem numberStart_of_isNumeral {raw rest : List Char} (h : IsNumeral raw) :
    numberStart.isAtStart (raw ++ rest) = true := by
  obtain ⟨mantissa, power, hmantissa, -, rfl⟩ := h
  have hdigits : ∀ {digits : List Char} (rest : List Char), IsDigits digits →
      ∃ d ds, digits ++ rest = d :: ds ∧ d.isDigit = true := by
    intro digits rest hdigits
    cases digits with
    | nil => exact absurd rfl hdigits.1
    | cons d ds => exact ⟨d, ds ++ rest, rfl, hdigits.2 d (List.mem_cons_self ..)⟩
  rw [numberStart_isAtStart, List.append_assoc]
  cases hmantissa with
  | whole h => exact Or.inl (hdigits _ h)
  | pointed h =>
    rw [List.append_assoc]
    exact Or.inl (hdigits _ h)
  | fraction h =>
    obtain ⟨d, ds, hds, hd⟩ := hdigits (power ++ rest) h
    exact Or.inr ⟨d, ds, by rw [List.cons_append, hds], hd⟩

end Pattern

/-! ## The longest mantissa -/

section LeadingMantissa

variable {text mantissa rest : List Char}

/-- The digits that a text begins with, and a point and digits if a point follows. -/
def leadingMantissa (text : List Char) : List Char :=
  match text.dropWhile Char.isDigit with
  | '.' :: behind => text.takeWhile Char.isDigit ++ '.' :: behind.takeWhile Char.isDigit
  | _ => text.takeWhile Char.isDigit

/-- Where a point follows the digits, it belongs to the mantissa with the digits behind it. -/
theorem leadingMantissa_of_point {behind : List Char}
    (h : text.dropWhile Char.isDigit = '.' :: behind) :
    leadingMantissa text = text.takeWhile Char.isDigit ++ '.' :: behind.takeWhile Char.isDigit := by
  simp only [leadingMantissa, h]

/-- Where none follows, the digits are all. -/
theorem leadingMantissa_of_no_point (h : (text.dropWhile Char.isDigit).head? ≠ some '.') :
    leadingMantissa text = text.takeWhile Char.isDigit := by
  unfold leadingMantissa
  split
  next behind hbehind => exact absurd (hbehind ▸ rfl) h
  next => rfl

theorem leadingMantissa_isPrefix (text : List Char) : leadingMantissa text <+: text := by
  have hsplit := List.takeWhile_append_dropWhile (p := Char.isDigit) (l := text)
  unfold leadingMantissa
  split
  next behind hbehind =>
    refine ⟨behind.dropWhile Char.isDigit, ?_⟩
    rw [List.append_assoc, List.cons_append, List.takeWhile_append_dropWhile, ← hbehind, hsplit]
  next => exact ⟨_, hsplit⟩

/-- What stands behind a mantissa leaves it as it is: no digit, and no point behind digits alone. -/
theorem leadingMantissa_append (h : IsMantissa mantissa)
    (hdigit : ∀ x ∈ rest.head?, x.isDigit = false)
    (hpoint : (∀ x ∈ mantissa, x.isDigit = true) → rest.head? ≠ some '.') :
    leadingMantissa (mantissa ++ rest) = mantissa := by
  rcases h.cases_point with hdigits | ⟨digits, fraction, hdigits, hfraction, rfl⟩
  · rw [leadingMantissa_of_no_point, Text.takeWhile_append hdigits.2 hdigit]
    rw [Text.dropWhile_append hdigits.2 hdigit]
    exact hpoint hdigits.2
  · have hstop : ∀ x ∈ ('.' :: (fraction ++ rest)).head?, x.isDigit = false := by
      intro x hx
      cases hx
      decide
    rw [List.append_assoc, List.cons_append,
      leadingMantissa_of_point (Text.dropWhile_append hdigits hstop),
      Text.takeWhile_append hdigits hstop, Text.takeWhile_append hfraction hdigit]

/-- Behind digits that are all of the mantissa there is no point. -/
theorem head?_ne_of_leadingMantissa (h : text = leadingMantissa text ++ rest)
    (hdigits : (leadingMantissa text).all Char.isDigit = true) : rest.head? ≠ some '.' := by
  intro hpoint
  have hall := List.all_eq_true.1 hdigits
  have hstop : ∀ x ∈ rest.head?, x.isDigit = false := fun x hx => by
    obtain rfl := Option.some.inj (hpoint.symm.trans hx)
    rfl
  obtain ⟨behind, rfl⟩ := List.head?_eq_some_iff.1 hpoint
  have hdrop : text.dropWhile Char.isDigit = '.' :: behind := by
    rw [h, Text.dropWhile_append hall hstop]
  have hmem : '.' ∈ leadingMantissa text := by
    rw [leadingMantissa_of_point hdrop]
    simp
  exact absurd (hall '.' hmem) (by decide)

/-- Where a number starts there is a mantissa. -/
theorem isMantissa_leadingMantissa (h : Pattern.numberStart.isAtStart text = true) :
    IsMantissa (leadingMantissa text) := by
  have hall : ∀ (text : List Char), ∀ x ∈ text.takeWhile Char.isDigit, x.isDigit = true :=
    fun text x hx => List.all_eq_true.1 List.all_takeWhile x hx
  rcases Pattern.numberStart_isAtStart.1 h with ⟨d, rest, rfl, hd⟩ | ⟨d, rest, rfl, hd⟩
  · have hdigits : IsDigits ((d :: rest).takeWhile Char.isDigit) := ⟨by simp [hd], hall _⟩
    unfold leadingMantissa
    split
    · exact .pointed hdigits (hall _)
    · exact .whole hdigits
  · have hdigits : IsDigits ((d :: rest).takeWhile Char.isDigit) := ⟨by simp [hd], hall _⟩
    exact .fraction hdigits

/-- No mantissa that the text begins with is longer. -/
theorem length_le_leadingMantissa (h : IsMantissa mantissa) (hbegins : mantissa <+: text) :
    mantissa.length ≤ (leadingMantissa text).length := by
  obtain ⟨rest, rfl⟩ := hbegins
  rcases h.cases_point with hdigits | ⟨digits, fraction, hdigits, hfraction, rfl⟩
  · have hle : mantissa.length ≤ ((mantissa ++ rest).takeWhile Char.isDigit).length := by
      rw [List.takeWhile_append_of_pos hdigits.2, List.length_append]
      exact Nat.le_add_right _ _
    unfold leadingMantissa
    split
    · rw [List.length_append]
      omega
    · exact hle
  · have hstop : ∀ x ∈ ('.' :: (fraction ++ rest)).head?, x.isDigit = false := by
      intro x hx
      cases hx
      decide
    rw [List.append_assoc, List.cons_append,
      leadingMantissa_of_point (Text.dropWhile_append hdigits hstop),
      Text.takeWhile_append hdigits hstop, List.takeWhile_append_of_pos hfraction]
    simp only [List.length_append, List.length_cons]
    omega

end LeadingMantissa

namespace Leaf

open Scan

variable {c c' : Cursor}

theorem isDigits_of_not_isEmpty {digits : List Char} (hne : ¬digits.isEmpty = true)
    (hdigits : ∀ x ∈ digits, x.isDigit = true) : IsDigits digits :=
  ⟨by simpa using hne, hdigits⟩

/-- What is read as a power of ten is one, or nothing. -/
theorem power_eq_ok {text : List Char} (h : power c = .ok text c') :
    c.Passes text c' ∧ (text = [] ∨ IsPower text) := by
  rw [power] at h
  obtain ⟨marker, c₁, hmarker, h⟩ := bind_eq_ok.1 h
  obtain ⟨hpassMarker, hmarker⟩ := piece_one_eq_ok hmarker
  rcases hmarker with rfl | ⟨e, rfl, he⟩
  · obtain ⟨rfl, rfl⟩ := pure_eq_ok.1 h
    exact ⟨hpassMarker, Or.inl rfl⟩
  · have he' : e = 'e' ∨ e = 'E' := by simpa using he
    obtain ⟨sign, c₂, hsign, h⟩ := bind_eq_ok.1 h
    obtain ⟨digits, c₃, hdigits, h⟩ := bind_eq_ok.1 h
    dsimp only at h
    rw [ite_run] at h
    split at h
    next => exact (fail_bind_ne_ok.1 h).elim
    next hne =>
      obtain ⟨rfl, rfl⟩ := pure_eq_ok.1 h
      obtain ⟨hpassSign, hsign⟩ := piece_one_eq_ok hsign
      obtain ⟨hpassDigits, hall⟩ := takeWhile_eq_ok hdigits
      have hdigits : IsDigits digits := isDigits_of_not_isEmpty hne hall
      refine ⟨(hpassMarker.trans hpassSign).trans hpassDigits, Or.inr ?_⟩
      rcases hsign with rfl | ⟨x, rfl, hx⟩
      · exact .unsigned he' hdigits
      · exact .signed he' (by simpa using hx) hdigits

/-- Without a marker no power of ten is read. -/
theorem power_none_run (h : ∀ x ∈ c.rest.head?, x ≠ 'e' ∧ x ≠ 'E') : power c = .ok [] c := by
  have hmarker : ∀ x ∈ c.rest.head?, (x == 'e' || x == 'E') = false := fun x hx => by
    simp [h x hx]
  rw [power, Pattern.exponentMarker, bind_run (piece_one_none_run hmarker)]
  rfl

/-- A power of ten is read with all its digits. -/
theorem power_run {text rest : List Char} (htext : IsPower text) (hc : c.rest = text ++ rest)
    (hrest : ∀ x ∈ rest.head?, x.isDigit = false) :
    power c = .ok text (c.skip text.length) := by
  rw [power, Pattern.exponentMarker]
  cases htext with
  | @unsigned marker digits hmarker hdigits =>
    have hhead : c.rest.head? = some marker := by rw [hc]; rfl
    have hc₁ : (c.skip 1).rest = digits ++ rest := by rw [Cursor.skip_rest, hc]; rfl
    have hsign : ∀ x ∈ (c.skip 1).rest.head?, (x == '+' || x == '-') = false := by
      intro x hx
      rw [hc₁] at hx
      have hd : x.isDigit = true := hdigits.isDigit_of_mem_head? hx
      refine Bool.eq_false_iff.2 fun hsign => ?_
      rcases (by simpa using hsign : x = '+' ∨ x = '-') with rfl | rfl <;>
        exact absurd hd (by decide)
    rw [bind_run (piece_one_run hhead (by simpa using hmarker)), if_neg (by simp),
      Pattern.exponentSign, bind_run (piece_one_none_run hsign),
      bind_run (takeWhile_append_run hc₁ hdigits.2 hrest), if_neg (by simpa using hdigits.1),
      Cursor.skip_skip, Nat.add_comm]
    rfl
  | @signed marker sign digits hmarker hsign hdigits =>
    have hhead : c.rest.head? = some marker := by rw [hc]; rfl
    have hsignHead : (c.skip 1).rest.head? = some sign := by rw [Cursor.skip_rest, hc]; rfl
    have hc₂ : ((c.skip 1).skip 1).rest = digits ++ rest := by
      rw [Cursor.skip_skip, Cursor.skip_rest, hc]
      rfl
    rw [bind_run (piece_one_run hhead (by simpa using hmarker)), if_neg (by simp),
      Pattern.exponentSign, bind_run (piece_one_run hsignHead (by simpa using hsign)),
      bind_run (takeWhile_append_run hc₂ hdigits.2 hrest), if_neg (by simpa using hdigits.1),
      Cursor.skip_skip, Cursor.skip_skip, ← Nat.add_assoc, Nat.add_comm (1 + 1)]
    rfl

/-- Behind a marker and its sign digits are called for. -/
theorem power_fault {begun rest : List Char} (h : IsDanglingPower begun rest)
    (hc : c.rest = begun ++ rest) :
    power c = .error ⟨.expected .exponentValue, (c.skip begun.length).position⟩
      (c.skip begun.length) := by
  have hdigits {c₁ : Cursor} (hc₁ : c₁.rest = rest) (hrest : ∀ x ∈ rest.head?, x.isDigit = false) :
      takeWhile Char.isDigit c₁ = .ok [] c₁ :=
    @takeWhile_append_run c₁ Char.isDigit [] rest hc₁ nofun hrest
  rw [power, Pattern.exponentMarker]
  cases h with
  | @unsigned marker rest hmarker hrest =>
    have hhead : c.rest.head? = some marker := by rw [hc]; rfl
    have hc₁ : (c.skip 1).rest = rest := by rw [Cursor.skip_rest, hc]; rfl
    have hsign : ∀ x ∈ (c.skip 1).rest.head?, (x == '+' || x == '-') = false := fun x hx => by
      simp [(hrest x (hc₁ ▸ hx)).2]
    rw [bind_run (piece_one_run hhead (by simpa using hmarker)), if_neg (by simp),
      Pattern.exponentSign, bind_run (piece_one_none_run hsign),
      bind_run (hdigits hc₁ fun x hx => (hrest x hx).1)]
    rfl
  | @signed marker sign rest hmarker hsign hrest =>
    have hhead : c.rest.head? = some marker := by rw [hc]; rfl
    have hsignHead : (c.skip 1).rest.head? = some sign := by rw [Cursor.skip_rest, hc]; rfl
    have hc₂ : ((c.skip 1).skip 1).rest = rest := by
      rw [Cursor.skip_skip, Cursor.skip_rest, hc]
      rfl
    rw [bind_run (piece_one_run hhead (by simpa using hmarker)), if_neg (by simp),
      Pattern.exponentSign, bind_run (piece_one_run hsignHead (by simpa using hsign)),
      bind_run (hdigits hc₂ hrest), Cursor.skip_skip]
    rfl

/-- The mantissa is read as far as it goes, and then a power of ten. -/
theorem numberText_eq (c : Cursor) :
    numberText c = (power >>= fun power => pure (leadingMantissa c.rest ++ power) : Scan _)
      (c.skip (leadingMantissa c.rest).length) := by
  rw [numberText, bind_run (takeWhile_run _ c)]
  have hwhole : (c.skip (c.rest.takeWhile Char.isDigit).length).rest =
      c.rest.dropWhile Char.isDigit :=
    Cursor.skip_length_rest List.takeWhile_append_dropWhile.symm
  by_cases hpoint : (c.rest.dropWhile Char.isDigit).head? = some '.'
  · obtain ⟨behind, hbehind⟩ := List.head?_eq_some_iff.1 hpoint
    have hmantissa := leadingMantissa_of_point hbehind
    rw [Pattern.char, bind_run (piece_one_run (hwhole ▸ hpoint) (by decide)), if_neg (by decide),
      bind_run (takeWhile_run _ _), Cursor.skip_rest _ 1, hwhole, hbehind, hmantissa,
      Cursor.skip_skip, Cursor.skip_skip, List.length_append, List.length_cons, Nat.add_comm 1]
    simp only [List.append_assoc, List.singleton_append, List.drop_one, List.tail_cons]
  · have hnone : ∀ x ∈ (c.skip (c.rest.takeWhile Char.isDigit).length).rest.head?,
        (x == '.') = false := fun x hx =>
      beq_eq_false_iff_ne.2 fun heq => hpoint (heq ▸ hwhole ▸ hx)
    rw [Pattern.char, bind_run (piece_one_none_run hnone), leadingMantissa_of_no_point hpoint]
    show (power >>= fun power => pure (c.rest.takeWhile Char.isDigit ++ [] ++ [] ++ power) : Scan _)
      _ = _
    rw [List.append_nil, List.append_nil]

/-- What is read as the spelling of a number where one starts is a numeral. -/
theorem numberText_eq_ok {text : List Char} (hstart : Pattern.numberStart.isAtStart c.rest = true)
    (h : numberText c = .ok text c') : c.Passes text c' ∧ IsNumeral text := by
  rw [numberText_eq] at h
  obtain ⟨power, c₁, hpower, h⟩ := bind_eq_ok.1 h
  obtain ⟨rfl, rfl⟩ := pure_eq_ok.1 h
  obtain ⟨hpass, hpower⟩ := power_eq_ok hpower
  obtain ⟨rest, hrest⟩ := leadingMantissa_isPrefix c.rest
  exact ⟨(Cursor.passes_skip hrest.symm).trans hpass, _, power,
    isMantissa_leadingMantissa hstart, hpower, rfl⟩

/-- Whatever is read as a number where one starts is a numeral, and its value is the double nearest
to the decimal that the numeral spells. -/
theorem number_eq_ok {e : Expr} (hstart : Pattern.numberStart.isAtStart c.rest = true)
    (h : number c = .ok e c') :
    ∃ text decimal, IsNumeral text ∧ Decimal.read? text = some decimal ∧ c.Passes text c' ∧
      e = .literal ⟨c.position, c'.position⟩ (String.ofList text)
        (.number (.ofDecimal decimal)) := by
  rw [number, position_bind] at h
  obtain ⟨text, c₁, htext, h⟩ := bind_eq_ok.1 h
  cases hread : Decimal.read? text with
  | none =>
    rw [hread] at h
    exact (failAt_ne_ok.1 h).elim
  | some decimal =>
    rw [hread] at h
    dsimp only at h
    rw [position_bind] at h
    obtain ⟨rfl, rfl⟩ := pure_eq_ok.1 h
    obtain ⟨hpass, hnumeral⟩ := numberText_eq_ok hstart htext
    exact ⟨text, decimal, hnumeral, hread, hpass, rfl⟩

/-- Digits that a point follows are not read as digits alone. -/
theorem numberText_head?_ne_point {text : List Char} (h : numberText c = .ok text c')
    (hdigits : text.all Char.isDigit = true) : c'.rest.head? ≠ some '.' := by
  rw [numberText_eq] at h
  obtain ⟨power, c₁, hpower, h⟩ := bind_eq_ok.1 h
  obtain ⟨rfl, rfl⟩ := pure_eq_ok.1 h
  rw [List.all_append, Bool.and_eq_true_iff] at hdigits
  obtain ⟨hpass, rfl | hpower⟩ := power_eq_ok hpower
  · obtain ⟨rest, hrest⟩ := leadingMantissa_isPrefix c.rest
    have hrest₁ : c₁.rest = rest := hpass.rest_eq.symm.trans (Cursor.skip_length_rest hrest.symm)
    rw [hrest₁]
    exact head?_ne_of_leadingMantissa hrest.symm hdigits.1
  · -- A power of ten does not consist of digits.
    obtain ⟨marker, rest, rfl⟩ := List.exists_cons_of_ne_nil hpower.ne_nil
    have hmarker := List.all_eq_true.1 hdigits.2 marker (List.mem_cons_self ..)
    rcases @IsPower.eq_marker_of_mem_head? _ [] hpower marker rfl with rfl | rfl
    · exact absurd hmarker (by decide)
    · exact absurd hmarker (by decide)

/-- No point follows digits that have been read as a number: it would belong to them. -/
theorem head?_ne_point {span : Span} {raw : String} {value : LiteralValue}
    (h : number c = .ok (.literal span raw value) c')
    (hdigits : raw.toList.all Char.isDigit = true) : c'.rest.head? ≠ some '.' := by
  rw [number, position_bind] at h
  obtain ⟨text, c₁, htext, h⟩ := bind_eq_ok.1 h
  cases hread : Decimal.read? text with
  | none =>
    rw [hread] at h
    exact (failAt_ne_ok.1 h).elim
  | some decimal =>
    rw [hread] at h
    dsimp only at h
    rw [position_bind] at h
    obtain ⟨heq, rfl⟩ := pure_eq_ok.1 h
    cases heq
    rw [String.toList_ofList] at hdigits
    exact numberText_head?_ne_point htext hdigits

/-- A numeral is read as a whole, if the text after it leaves it as it is. -/
theorem numberText_run {text rest : List Char} (htext : IsNumeral text)
    (hc : c.rest = text ++ rest) (hrest : EndsNumeral text rest) :
    numberText c = .ok text (c.skip text.length) := by
  obtain ⟨mantissa, powerText, hmantissa, hpower, rfl⟩ := htext
  have hdigit : ∀ x ∈ rest.head?, x.isDigit = false := fun x hx =>
    Bool.eq_false_iff.2 fun hd =>
      Bool.eq_false_iff.1 (hrest.1 x hx) (Text.isIdentifierPart_of_isDigit hd)
  rw [List.append_assoc] at hc
  -- Neither a digit nor, after digits alone, a point comes after the mantissa.
  have hleading : leadingMantissa c.rest = mantissa := by
    rw [hc]
    refine leadingMantissa_append hmantissa (fun x hx => ?_) fun hdigits hpoint => ?_
    · rcases hpower with rfl | hpower
      · exact hdigit x hx
      · rcases hpower.eq_marker_of_mem_head? hx with rfl | rfl <;> decide
    · rcases hpower with rfl | hpower
      · exact hrest.2 (by simpa using hdigits) hpoint
      · rcases hpower.eq_marker_of_mem_head? hpoint with hx | hx <;> cases hx
  have hc₁ : (c.skip mantissa.length).rest = powerText ++ rest := Cursor.skip_length_rest hc
  have hrun : power (c.skip mantissa.length) =
      .ok powerText ((c.skip mantissa.length).skip powerText.length) := by
    rcases hpower with rfl | hpower
    · -- A marker would be part of a name.
      refine power_none_run fun x hx => ?_
      rw [hc₁] at hx
      constructor
      · rintro rfl
        exact Bool.eq_false_iff.1 (hrest.1 _ hx) rfl
      · rintro rfl
        exact Bool.eq_false_iff.1 (hrest.1 _ hx) rfl
    · exact power_run hpower hc₁ hdigit
  rw [numberText_eq, hleading, bind_run hrun, Cursor.skip_skip, ← List.length_append]
  rfl

/-- A numeral is read as a literal of the double nearest to the decimal that it spells. -/
theorem number_run {text rest : List Char} {decimal : Decimal} (htext : IsNumeral text)
    (hread : Decimal.read? text = some decimal) (hc : c.rest = text ++ rest)
    (hrest : EndsNumeral text rest) :
    number c = .ok (.literal ⟨c.position, (c.skip text.length).position⟩ (String.ofList text)
      (.number (.ofDecimal decimal))) (c.skip text.length) := by
  rw [number, position_bind, bind_run (numberText_run htext hc hrest), hread]
  rfl

end Leaf

end Estree
