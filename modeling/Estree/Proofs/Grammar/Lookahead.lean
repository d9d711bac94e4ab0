import Estree.Proofs.Grammar.Token

/-!
# How far the grammar looks ahead

No word, number or operator has a blank in it. So whatever the grammar looks for at a place, it
looks at the text up to the first blank only, and what it takes there is a piece of that
(`Pattern.IsSolid`).

> `Text.solid`: the text up to its first blank.
> `Pattern.IsSolid`: a pattern matches as much of a text as of its solid part, and no more than
> that.
> `Text.IsSolid`: the same of a class of characters, which has no blank in it.

Patterns are solid because of how they are put together: a spelling without blanks is, a class
without blanks is, and so are a pattern followed by another one and the first of several patterns,
if their parts are. Each pattern of the grammar follows from these, and with the patterns each
operator that they find (`access?_solid`, `infixOperator?_solid`, …).
-/

namespace Estree

/-! ## Texts up to the first blank -/

namespace Text

variable {p : Char → Bool} {text : List Char}

/-- The text up to the first blank. -/
def solid (text : List Char) : List Char :=
  text.takeWhile fun x => !isBlank x

/-- No blank is in an identifier. -/
theorem isIdentifierPart_of_isBlank {x : Char} (h : isBlank x = true) :
    isIdentifierPart x = false := by
  obtain ⟨range, hrange, hx⟩ := CodeRanges.contains_iff.1 h
  have hblanks : ∀ range ∈ whiteSpace, ∀ n ∈ List.range' range.1 (range.2 + 1 - range.1),
      isIdentifierPart (Char.ofNat n) = false := by
    decide +kernel
  have hn := hblanks range hrange x.toNat (by rw [List.mem_range'_1]; omega)
  rwa [Char.ofNat_toNat] at hn

/-- Whether a class of characters has no blank. -/
def IsSolid (p : Char → Bool) : Prop :=
  ∀ x, isBlank x = true → p x = false

/-- Parts of identifiers are no blanks. -/
theorem isSolid_isIdentifierPart : IsSolid isIdentifierPart :=
  fun _ => isIdentifierPart_of_isBlank

/-- Digits are no blanks. -/
theorem isSolid_isDigit : IsSolid Char.isDigit := fun x hx =>
  Bool.eq_false_iff.2 fun hdigit => by
    rw [isBlank_of_isDigit hdigit] at hx
    cases hx

/-- A character that is no blank is a solid class. -/
theorem isSolid_char {y : Char} (hy : isBlank y = false) : IsSolid (· == y) := fun x hx =>
  beq_eq_false_iff_ne.2 fun heq => by
    rw [heq, hy] at hx
    cases hx

/-- A run of a class without blanks ends before the first blank. -/
theorem takeWhile_solid (hp : IsSolid p) : (solid text).takeWhile p = text.takeWhile p := by
  induction text with
  | nil => rfl
  | cons x xs ih =>
    by_cases hx : isBlank x = true
    · rw [solid, List.takeWhile_cons_of_neg (by simp [hx]),
        List.takeWhile_cons_of_neg (by simp [hp x hx])]
      rfl
    · rw [solid, List.takeWhile_cons_of_pos (by simp [hx])]
      by_cases hpx : p x = true
      · rw [List.takeWhile_cons_of_pos hpx, List.takeWhile_cons_of_pos hpx, ← ih]
        rfl
      · rw [List.takeWhile_cons_of_neg hpx, List.takeWhile_cons_of_neg hpx]

/-- A run of a solid class ends before the first blank. -/
theorem length_takeWhile_le_solid (hp : IsSolid p) :
    (text.takeWhile p).length ≤ (solid text).length := by
  rw [← takeWhile_solid hp]
  exact (List.takeWhile_prefix p).length_le

/-- Skipping within the solid part leaves the rest of it. -/
theorem solid_drop {n : Nat} (h : n ≤ (solid text).length) :
    solid (text.drop n) = (solid text).drop n := by
  have happend : solid text ++ (text.dropWhile fun x => !isBlank x) = text :=
    List.takeWhile_append_dropWhile
  have hsolid : ∀ x ∈ (solid text).drop n, (!isBlank x) = true := fun x hx =>
    List.all_eq_true.1 List.all_takeWhile x (List.mem_of_mem_drop hx)
  have hdrop : text.drop n = (solid text).drop n ++ text.dropWhile fun x => !isBlank x := by
    rw [← List.drop_append_of_le_length h, happend]
  rw [hdrop]
  exact takeWhile_append hsolid fun x hx => not_of_mem_head?_dropWhile hx

/-- What is next, if it is no blank. -/
theorem head?_solid {x : Char} (hx : isBlank x = false) :
    (solid text).head? = some x ↔ text.head? = some x := by
  cases text with
  | nil => rfl
  | cons y ys =>
    by_cases hy : isBlank y = true
    · rw [solid, List.takeWhile_cons_of_neg (by simp [hy])]
      refine ⟨nofun, fun h => ?_⟩
      obtain rfl := Option.some.inj h
      rw [hx] at hy
      cases hy
    · rw [solid, List.takeWhile_cons_of_pos (by simp [hy])]
      rfl

/-- A word ends before the first blank. -/
theorem leadingWord_solid : leadingWord (solid text) = leadingWord text := by
  cases text with
  | nil => rfl
  | cons x xs =>
    by_cases hx : isBlank x = true
    · rw [solid, List.takeWhile_cons_of_neg (by simp [hx]), leadingWord, leadingWord,
        if_neg (by simp [isIdentifierStart_of_isBlank hx])]
    · rw [solid, List.takeWhile_cons_of_pos (by simp [hx]), leadingWord, leadingWord]
      have htake : (xs.takeWhile fun x => !isBlank x).takeWhile isIdentifierPart =
          xs.takeWhile isIdentifierPart := takeWhile_solid isSolid_isIdentifierPart
      rw [htake]

/-- So it is no longer than the solid part. -/
theorem length_leadingWord_le_solid : (leadingWord text).length ≤ (solid text).length := by
  rw [← leadingWord_solid]
  exact (leadingWord_isPrefixOf _).length_le

end Text

/-! ## Patterns -/

namespace Pattern

open Text

/-- Whether the pattern looks no further than to the first blank. -/
structure IsSolid (pattern : Pattern) : Prop where
  length_solid : ∀ text, pattern.length (solid text) = pattern.length text
  length_le : ∀ text, pattern.length text ≤ (solid text).length

variable {pattern second : Pattern} {text : List Char}

/-- A solid pattern takes the same piece of the solid part. -/
theorem IsSolid.piece_solid (h : pattern.IsSolid) :
    pattern.piece (solid text) = pattern.piece text := by
  have happend : solid text ++ (text.dropWhile fun x => !isBlank x) = text :=
    List.takeWhile_append_dropWhile
  rw [piece, piece, h.length_solid, ← List.take_append_of_le_length (h.length_le text), happend]

/-- A solid pattern is found by the solid part. -/
theorem IsSolid.isAtStart_solid (h : pattern.IsSolid) :
    pattern.isAtStart (solid text) = pattern.isAtStart text := by
  rw [isAtStart, isAtStart, h.piece_solid]

/-- The one character at the start is a member or is none, and if it is a blank it is none. -/
theorem isSolid_one {p : Char → Bool} (hp : Text.IsSolid p) : (one p).IsSolid where
  length_solid text := by
    cases text with
    | nil => rfl
    | cons x xs =>
      by_cases hx : isBlank x = true
      · simp [solid, one, hx, hp x hx]
      · simp [solid, one, hx]
  length_le text := by
    cases text with
    | nil => exact Nat.le_refl 0
    | cons x xs =>
      by_cases hx : isBlank x = true
      · simp [one, hp x hx]
      · by_cases hpx : p x = true <;> simp [solid, one, hx, hpx]

/-- A character that is no blank is a solid pattern. -/
theorem isSolid_char {x : Char} (hx : isBlank x = false) : (char x).IsSolid :=
  isSolid_one (Text.isSolid_char hx)

/-- A spelling without blanks is found or not before the first blank. -/
theorem isPrefixOf_solid {spelling : List Char} (h : ∀ x ∈ spelling, isBlank x = false) :
    spelling.isPrefixOf (solid text) = spelling.isPrefixOf text := by
  induction spelling generalizing text with
  | nil => rfl
  | cons y ys ih =>
    cases text with
    | nil => rfl
    | cons x xs =>
      by_cases hx : isBlank x = true
      · have hne : (y == x) = false := beq_eq_false_iff_ne.2 fun heq => by
          rw [← heq, h y (List.mem_cons_self ..)] at hx
          cases hx
        rw [solid, List.takeWhile_cons_of_neg (by simp [hx])]
        simp [List.isPrefixOf, hne]
      · rw [solid, List.takeWhile_cons_of_pos (by simp [hx]), List.isPrefixOf, List.isPrefixOf]
        congr 1
        exact ih fun z hz => h z (List.mem_cons_of_mem y hz)

/-- So is a spelling without blanks. -/
theorem isSolid_text {s : String} (hs : s.toList.all fun x => !isBlank x) :
    (Pattern.text s).IsSolid := by
  have hsolid : ∀ x ∈ s.toList, isBlank x = false := fun x hx => by
    simpa using List.all_eq_true.1 hs x hx
  refine ⟨fun text => ?_, fun text => ?_⟩
  · show (if _ then _ else _) = if _ then _ else _
    rw [isPrefixOf_solid hsolid]
  · show (if _ then _ else _) ≤ _
    split
    next h =>
      rw [← isPrefixOf_solid hsolid] at h
      exact (List.isPrefixOf_iff_prefix.1 h).length_le
    next => exact Nat.zero_le _

/-- So is a solid pattern followed by another one. -/
theorem isSolid_followedBy (h : pattern.IsSolid) (h' : second.IsSolid) :
    (pattern.followedBy second).IsSolid := by
  have hdrop : ∀ text, second.length ((solid text).drop (pattern.length text)) =
      second.length (text.drop (pattern.length text)) := fun text => by
    rw [← solid_drop (h.length_le text), h'.length_solid]
  refine ⟨fun text => ?_, fun text => ?_⟩
  · simp only [followedBy, h.length_solid, hdrop]
  · simp only [followedBy]
    split
    next => exact Nat.zero_le _
    next =>
      have hle := h'.length_le (text.drop (pattern.length text))
      rw [solid_drop (h.length_le text), List.length_drop] at hle
      have hle' := h.length_le text
      omega

/-- So is the first of several solid patterns. -/
theorem isSolid_firstOf {patterns : List Pattern} (h : ∀ pattern ∈ patterns, pattern.IsSolid) :
    (firstOf patterns).IsSolid := by
  have hmap : ∀ text, patterns.map (·.length (solid text)) = patterns.map (·.length text) :=
    fun text => List.map_congr_left fun pattern hpattern => (h pattern hpattern).length_solid text
  refine ⟨fun text => ?_, fun text => ?_⟩
  · show (((patterns.map (·.length (solid text))).find? _).getD 0) = _
    rw [hmap]
    rfl
  · show (((patterns.map (·.length text)).find? _).getD 0) ≤ _
    cases hfind : (patterns.map (·.length text)).find? (· ≠ 0) with
    | none => exact Nat.zero_le _
    | some n =>
      obtain ⟨pattern, hpattern, rfl⟩ := List.mem_map.1 (List.mem_of_find?_eq_some hfind)
      exact (h pattern hpattern).length_le text

/-- Updates have no blanks. -/
theorem isSolid_updateOperator : updateOperator.IsSolid :=
  isSolid_firstOf <| by
    simp only [List.forall_mem_cons, List.not_mem_nil, false_implies, implies_true, and_true]
    exact ⟨isSolid_text (by decide), isSolid_text (by decide)⟩

/-- Nor have the signs of accesses. -/
theorem isSolid_access : access.IsSolid :=
  isSolid_firstOf <| by
    simp only [List.forall_mem_cons, List.not_mem_nil, false_implies, implies_true, and_true]
    exact ⟨isSolid_text (by decide), isSolid_text (by decide), isSolid_text (by decide),
      isSolid_text (by decide)⟩

/-- Nor has a question mark before a fraction. -/
theorem isSolid_questionBeforeFraction : questionBeforeFraction.IsSolid :=
  isSolid_followedBy (isSolid_text (by decide)) (isSolid_one isSolid_isDigit)

/-- Nor has the start of a number. -/
theorem isSolid_numberStart : numberStart.IsSolid :=
  isSolid_firstOf <| by
    simp only [List.forall_mem_cons, List.not_mem_nil, false_implies, implies_true, and_true]
    exact ⟨isSolid_one isSolid_isDigit,
      isSolid_followedBy (isSolid_char (by decide)) (isSolid_one isSolid_isDigit)⟩

/-- A class of a few characters, none of them a blank. -/
theorem isSolid_of_list {p : Char → Bool} (xs : List Char) (hp : ∀ x, p x = true → x ∈ xs)
    (hxs : xs.all fun x => !isBlank x) : Text.IsSolid p := fun x hx =>
  Bool.eq_false_iff.2 fun hpx => by
    have hsolid := List.all_eq_true.1 hxs x (hp x hpx)
    rw [hx] at hsolid
    cases hsolid

/-- Nor has the marker of an exponent. -/
theorem isSolid_exponentMarker : exponentMarker.IsSolid :=
  isSolid_one (isSolid_of_list ['e', 'E'] (fun x hx => by simpa using hx) (by decide))

/-- Nor has its sign. -/
theorem isSolid_exponentSign : exponentSign.IsSolid :=
  isSolid_one (isSolid_of_list ['+', '-'] (fun x hx => by simpa using hx) (by decide))

/-- Nor has a unary symbol. -/
theorem isSolid_unarySymbol : unarySymbol.IsSolid :=
  isSolid_one
    (isSolid_of_list ['!', '~', '+', '-'] (fun x hx => by simpa [or_assoc] using hx) (by decide))

/-- Nor has an infix symbol. -/
theorem isSolid_infixSymbol : infixSymbol.IsSolid :=
  isSolid_firstOf <| by
    simp only [List.forall_mem_cons, List.not_mem_nil, false_implies, implies_true, and_true]
    refine ⟨?_, ?_, ?_, ?_, ?_, ?_, ?_, ?_, ?_, ?_, ?_, ?_, ?_, ?_⟩
    any_goals exact isSolid_text (by decide)
    exact isSolid_one (isSolid_of_list "<>+-*/%&|^".toList
      (fun x hx => List.contains_iff_mem.1 hx) (by decide))

end Pattern

/-! ## Operators -/

namespace Token

open Text

variable {text : List Char}

/-- A word or symbol is found by the solid part. -/
theorem wordOr_solid {symbol : Pattern} (h : symbol.IsSolid) :
    wordOr symbol (solid text) = wordOr symbol text := by
  rw [wordOr, wordOr, leadingWord_solid, h.piece_solid]

/-- It is no longer than the solid part. -/
theorem length_wordOr_le_solid {symbol : Pattern} (h : symbol.IsSolid) :
    (wordOr symbol text).length ≤ (solid text).length := by
  rw [wordOr]
  split
  next =>
    rw [Pattern.piece, List.length_take]
    exact Nat.le_trans (Nat.min_le_left _ _) (h.length_le text)
  next word _ => exact length_leadingWord_le_solid

/-- An update is found by the solid part. -/
theorem updateOperator?_solid : updateOperator? (solid text) = updateOperator? text := by
  rw [updateOperator?, updateOperator?, Pattern.isSolid_updateOperator.piece_solid]

/-- So is an access. -/
theorem access?_solid : access? (solid text) = access? text := by
  rw [access?, access?, Pattern.isSolid_questionBeforeFraction.isAtStart_solid,
    Pattern.isSolid_access.piece_solid]

/-- So is a unary operator. -/
theorem unaryOperator?_solid : unaryOperator? (solid text) = unaryOperator? text := by
  rw [unaryOperator?, unaryOperator?, Pattern.isSolid_updateOperator.isAtStart_solid,
    wordOr_solid Pattern.isSolid_unarySymbol]

/-- So is an infix operator. -/
theorem infixOperator?_solid : infixOperator? (solid text) = infixOperator? text := by
  have hnext : ∀ {x : Char}, isBlank x = false → ∀ {n : Nat}, n ≤ (solid text).length →
      (((solid text).drop n).head? == some x) = ((text.drop n).head? == some x) := by
    intro x hx n hn
    rw [← solid_drop hn, Bool.eq_iff_iff, beq_iff_eq, beq_iff_eq, head?_solid hx]
  have hle : (wordOr .infixSymbol text).length ≤ (solid text).length :=
    length_wordOr_le_solid Pattern.isSolid_infixSymbol
  simp only [infixOperator?, wordOr_solid Pattern.isSolid_infixSymbol,
    hnext (x := '=') (by decide) hle, hnext (x := '+') (by decide) hle,
    hnext (x := '-') (by decide) hle]

/-! What is found is a piece of the text up to the first blank. -/

/-- An update ends before the first blank. -/
theorem length_updateOperator_le {operator : UpdateOperator}
    (h : updateOperator? text = some operator) : operator.text.length ≤ (solid text).length := by
  have hspelling : operator.text = String.ofList (Pattern.updateOperator.piece text) := by
    simpa using List.find?_some h
  rw [hspelling, String.length_ofList, Pattern.piece, List.length_take]
  exact Nat.le_trans (Nat.min_le_left _ _) (Pattern.isSolid_updateOperator.length_le text)

/-- So does an access. -/
theorem length_access_le {access : Access} (h : access? text = some access) :
    access.text.length ≤ (solid text).length := by
  rw [← access?_solid] at h
  obtain ⟨rest, hrest⟩ := access?_eq_some h
  rw [hrest, List.length_append, String.length_toList]
  exact Nat.le_add_right _ _

/-- So does a unary operator. -/
theorem length_unaryOperator_le {operator : UnaryOperator}
    (h : unaryOperator? text = some operator) : operator.text.length ≤ (solid text).length := by
  rw [unaryOperator?] at h
  split at h
  next => cases h
  next =>
    have hspelling : operator.text = String.ofList (wordOr .unarySymbol text) := by
      simpa using List.find?_some h
    rw [hspelling, String.length_ofList]
    exact length_wordOr_le_solid Pattern.isSolid_unarySymbol

/-- So does an infix operator. -/
theorem length_infixOperator_le {operator : InfixOperator}
    (h : infixOperator? text = some operator) : operator.text.length ≤ (solid text).length := by
  obtain ⟨h, -⟩ := Option.filter_eq_some_iff.1 h
  have hspelling : operator.text = String.ofList (wordOr .infixSymbol text) := by
    rw [InfixOperator.ofText?, Option.or_eq_some_iff] at h
    rcases h with h | ⟨-, h⟩
    · obtain ⟨logical, hlogical, rfl⟩ := Option.map_eq_some_iff.1 h
      show logical.text = _
      simpa using List.find?_some hlogical
    · obtain ⟨binary, hbinary, rfl⟩ := Option.map_eq_some_iff.1 h
      show binary.text = _
      simpa using List.find?_some hbinary
  rw [hspelling, String.length_ofList]
  exact length_wordOr_le_solid Pattern.isSolid_infixSymbol

end Token

end Estree
