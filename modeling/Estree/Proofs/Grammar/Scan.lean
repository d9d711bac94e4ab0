import Estree.Grammar.Leaf
import Estree.Proofs.Text.Classes

/-!
# How scans run

A scan ends with a value and the cursor that it has moved to, or in a fault. Here every step that
the grammar is built from is described by its outcome, so that later proofs take a production apart,
or put one together, without opening a scan.

The lemmas come in two directions, and are named for them:

* `…_run` and `…_bind` say what a step does at a cursor of which enough is known. Rewriting with
  them runs a scan from the front.
* `…_eq_ok` say what must have happened if a step has ended with a value. For a bind that is a value
  of its first part, from which the second part has gone on (`bind_eq_ok`). A step that only raises
  a fault ends with no value (`fail_ne_ok`), so the branches of a production that refuse something
  drop out by themselves.

Cursors are compared in two ways. `Passes` says which piece of the text lies between two of them,
and `Reaches` only that the second one is not before the first.
-/

namespace Estree

/-! ## Runs of characters -/

namespace Text

variable {p : Char → Bool} {xs rest : List Char}

/-- A run of a class ends where the first other character is. -/
theorem takeWhile_append (hxs : ∀ x ∈ xs, p x = true) (hrest : ∀ x ∈ rest.head?, p x = false) :
    (xs ++ rest).takeWhile p = xs := by
  rw [List.takeWhile_append_of_pos hxs]
  cases rest with
  | nil => simp
  | cons y ys => simp [hrest y rfl]

/-- Members at the front are dropped up to the first character that is none. -/
theorem dropWhile_append (hxs : ∀ x ∈ xs, p x = true) (hrest : ∀ x ∈ rest.head?, p x = false) :
    (xs ++ rest).dropWhile p = rest := by
  rw [List.dropWhile_append_of_pos hxs]
  cases rest with
  | nil => rfl
  | cons y ys => simp [hrest y rfl]

/-- What is left begins with no member. -/
theorem not_of_mem_head?_dropWhile {x : Char} (h : x ∈ (xs.dropWhile p).head?) : p x = false := by
  have hnot := List.head?_dropWhile_not p xs
  rw [Option.mem_def.1 h] at hnot
  simpa using hnot

/-- A run that has been dropped has no more to drop. -/
theorem dropWhile_dropWhile (p : Char → Bool) (xs : List Char) :
    (xs.dropWhile p).dropWhile p = xs.dropWhile p := by
  have happend : ([] ++ xs.dropWhile p).dropWhile p = xs.dropWhile p :=
    dropWhile_append nofun fun x hx => not_of_mem_head?_dropWhile hx
  exact happend

/-- Of what is left nothing is taken. -/
theorem takeWhile_dropWhile (p : Char → Bool) (xs : List Char) :
    (xs.dropWhile p).takeWhile p = [] := by
  have happend : ([] ++ xs.dropWhile p).takeWhile p = [] :=
    takeWhile_append nofun fun x hx => not_of_mem_head?_dropWhile hx
  exact happend

/-- Blanks without line ends are some of the blanks. -/
theorem dropWhile_inlineBlank (rest : List Char) :
    (rest.dropWhile isInlineBlank).dropWhile isBlank = rest.dropWhile isBlank := by
  induction rest with
  | nil => rfl
  | cons x xs ih =>
    by_cases hx : isInlineBlank x = true
    · have hblank := isBlank_of_isInlineBlank hx
      rw [List.dropWhile_cons_of_pos hx, ih, List.dropWhile_cons_of_pos hblank]
    · rw [List.dropWhile_cons_of_neg hx]

end Text

/-! ## Cursors -/

namespace Cursor

/-- A piece of the text lies between two cursors. -/
structure Passes (c : Cursor) (piece : List Char) (c' : Cursor) : Prop where
  rest_eq : c.rest = piece ++ c'.rest
  eq_skip : c' = c.skip piece.length

/-- Past blanks and line ends. -/
def pastBlanks (c : Cursor) : Cursor := c.skipBlanks true

/-- Past blanks the text is left without them. -/
theorem pastBlanks_rest (c : Cursor) : c.pastBlanks.rest = c.rest.dropWhile Text.isBlank := rfl

/-- Blanks are passed at once. -/
theorem pastBlanks_pastBlanks (c : Cursor) : c.pastBlanks.pastBlanks = c.pastBlanks := by
  have hdrop : c.pastBlanks.rest.dropWhile Text.isBlank = c.pastBlanks.rest :=
    Text.dropWhile_dropWhile _ _
  have htake : c.pastBlanks.rest.takeWhile Text.isBlank = [] := Text.takeWhile_dropWhile _ _
  show Cursor.mk (c.pastBlanks.position + _) (c.pastBlanks.rest.dropWhile Text.isBlank) = _
  rw [hdrop]
  show Cursor.mk
    (c.pastBlanks.position + Text.utf8Size (c.pastBlanks.rest.takeWhile Text.isBlank)) _
    = _
  rw [htake]
  rfl

/-- What is skipped is dropped from the text. -/
theorem skip_rest (c : Cursor) (n : Nat) : (c.skip n).rest = c.rest.drop n := rfl

theorem skip_zero (c : Cursor) : c.skip 0 = c := rfl

/-- Characters may be skipped in two parts. -/
theorem skip_skip (c : Cursor) (m n : Nat) : (c.skip m).skip n = c.skip (m + n) := by
  simp only [skip, List.take_add, List.drop_drop, Text.utf8Size_append, Nat.add_assoc]

/-- Skipping a piece of the text leaves what follows it. -/
theorem skip_length_rest {c : Cursor} {piece rest : List Char} (h : c.rest = piece ++ rest) :
    (c.skip piece.length).rest = rest := by
  rw [skip_rest, h, List.drop_left]

/-- The character at the cursor stands before what is left behind it. -/
theorem rest_eq_cons_skip {c : Cursor} {x : Char} (h : c.rest.head? = some x) :
    c.rest = [x] ++ (c.skip 1).rest := by
  rw [skip_rest]
  cases hrest : c.rest with
  | nil =>
    rw [hrest] at h
    cases h
  | cons y ys =>
    rw [hrest] at h
    cases h
    rfl

theorem Passes.refl (c : Cursor) : c.Passes [] c := ⟨rfl, rfl⟩

/-- Pieces are passed one after the other. -/
theorem Passes.trans {c c₁ c₂ : Cursor} {first second : List Char} (h₁ : c.Passes first c₁)
    (h₂ : c₁.Passes second c₂) : c.Passes (first ++ second) c₂ := by
  refine ⟨?_, ?_⟩
  · rw [h₁.rest_eq, h₂.rest_eq, List.append_assoc]
  · rw [h₂.eq_skip, h₁.eq_skip, skip_skip, List.length_append]

/-- The cursor passes what it skips. -/
theorem passes_skip {c : Cursor} {piece rest : List Char} (h : c.rest = piece ++ rest) :
    c.Passes piece (c.skip piece.length) :=
  ⟨by rw [skip_length_rest h, h], rfl⟩

/-- Skipping a run of a class is skipping that many characters. -/
theorem skipWhile_eq_skip (c : Cursor) (p : Char → Bool) :
    c.skipWhile p = c.skip (c.rest.takeWhile p).length := by
  have hsplit : c.rest.takeWhile p ++ c.rest.dropWhile p = c.rest :=
    List.takeWhile_append_dropWhile
  have htake : (c.rest.takeWhile p ++ c.rest.dropWhile p).take (c.rest.takeWhile p).length =
      c.rest.takeWhile p := List.take_left
  have hdrop : (c.rest.takeWhile p ++ c.rest.dropWhile p).drop (c.rest.takeWhile p).length =
      c.rest.dropWhile p := List.drop_left
  rw [hsplit] at htake hdrop
  rw [skipWhile, skip, htake, hdrop]

/-- Nothing is passed before something that is no blank. -/
theorem pastBlanks_of_cons {c : Cursor} {x : Char} {xs : List Char} (hc : c.rest = x :: xs)
    (hx : Text.isBlank x = false) : c.pastBlanks = c := by
  have htake : c.rest.takeWhile Text.isBlank = [] := by
    rw [hc, List.takeWhile_cons_of_neg (Bool.eq_false_iff.1 hx)]
  show c.skipWhile Text.isBlank = c
  rw [skipWhile_eq_skip, htake]
  rfl

/-- The second cursor is further on in the text, or at the same place. -/
def Reaches (c c₁ : Cursor) : Prop := ∃ n, c₁ = c.skip n

theorem Reaches.refl (c : Cursor) : c.Reaches c := ⟨0, rfl⟩

/-- Further on from a place further on. -/
theorem Reaches.trans {c c₁ c₂ : Cursor} (h₁ : c.Reaches c₁) (h₂ : c₁.Reaches c₂) :
    c.Reaches c₂ := by
  obtain ⟨m, rfl⟩ := h₁
  obtain ⟨n, rfl⟩ := h₂
  exact ⟨m + n, c.skip_skip m n⟩

/-- Skipping moves on. -/
theorem reaches_skip (c : Cursor) (n : Nat) : c.Reaches (c.skip n) := ⟨n, rfl⟩

/-- So does skipping blanks. -/
theorem reaches_skipBlanks (c : Cursor) (lineEnds : Bool) : c.Reaches (c.skipBlanks lineEnds) :=
  ⟨_, c.skipWhile_eq_skip _⟩

theorem reaches_pastBlanks (c : Cursor) : c.Reaches c.pastBlanks := c.reaches_skipBlanks true

/-- So do both, one after the other. -/
theorem reaches_pastBlanks_skip (c : Cursor) (n : Nat) : c.Reaches (c.pastBlanks.skip n) :=
  c.reaches_pastBlanks.trans (c.pastBlanks.reaches_skip n)

/-- Passing a piece moves on. -/
theorem Passes.reaches {c c₁ : Cursor} {piece : List Char} (h : c.Passes piece c₁) :
    c.Reaches c₁ := ⟨_, h.eq_skip⟩

/-- Where nothing is left to be skipped, the cursor stays. -/
theorem skip_of_take_eq_nil {c : Cursor} {n : Nat} (h : c.rest.take n = []) : c.skip n = c := by
  have hdrop : c.rest.drop n = c.rest := by
    have happend := List.take_append_drop n c.rest
    rwa [h, List.nil_append] at happend
  rw [skip, h, hdrop]
  rfl

end Cursor

/-- A character is found where it is the next one. -/
theorem Pattern.length_char (x : Char) (text : List Char) :
    (Pattern.char x).length text = if text.head? = some x then 1 else 0 := by
  cases text with
  | nil => simp [Pattern.char, Pattern.one]
  | cons y ys => simp [Pattern.char, Pattern.one]

/-- A character is found where it stands. -/
theorem Pattern.isAtStart_char (x : Char) (text : List Char) :
    (Pattern.char x).isAtStart text = true ↔ text.head? = some x := by
  rw [Pattern.isAtStart, Pattern.piece, Pattern.length_char]
  cases text with
  | nil => simp
  | cons y ys => by_cases hy : y = x <;> simp [hy]

/-! ## Outcomes of scans -/

namespace Scan

variable {α β : Type} {c c' : Cursor} {a : α} {b : β}

/-- A scan in two parts succeeds if the second part does where the first one has ended. -/
theorem bind_eq_ok {x : Scan α} {f : α → Scan β} :
    (x >>= f) c = .ok b c' ↔ ∃ a c₁, x c = .ok a c₁ ∧ f a c₁ = .ok b c' := by
  show EStateM.bind x f c = .ok b c' ↔ _
  rw [EStateM.bind]
  cases x c with
  | ok a c₁ =>
    constructor
    · intro h
      exact ⟨a, c₁, rfl, h⟩
    · rintro ⟨_, _, ⟨⟩, h⟩
      exact h
  | error fault c₁ => simp

/-- After a value the second part goes on. -/
theorem bind_run {x : Scan α} {f : α → Scan β} (h : x c = .ok a c') :
    (x >>= f) c = f a c' := by
  show EStateM.bind x f c = _
  rw [EStateM.bind, h]

/-- A fault in the first part is the outcome of both. -/
theorem bind_error {x : Scan α} {f : α → Scan β} {fault : Fault} (h : x c = .error fault c') :
    (x >>= f) c = .error fault c' := by
  show EStateM.bind x f c = _
  rw [EStateM.bind, h]

theorem pure_run : (pure a : Scan α) c = .ok a c := rfl

/-- A value is yielded on the spot. -/
theorem pure_eq_ok {a' : α} : (pure a : Scan α) c = .ok a' c' ↔ a = a' ∧ c = c' := by
  rw [pure_run]
  simp

/-- A fault yields no value. -/
theorem failAt_ne_ok {offset : Nat} {cause : Cause} :
    (failAt offset cause : Scan α) c = .ok a c' ↔ False := by
  show EStateM.Result.error _ c = .ok a c' ↔ _
  simp

/-- Nor does a fault at the cursor. -/
theorem fail_ne_ok {cause : Cause} : (fail cause : Scan α) c = .ok a c' ↔ False :=
  failAt_ne_ok

/-- Nothing goes on after a fault. -/
theorem failAt_bind_ne_ok {offset : Nat} {cause : Cause} {f : α → Scan β} :
    (failAt offset cause >>= f) c = .ok b c' ↔ False := by
  rw [bind_eq_ok]
  simp [failAt_ne_ok]

/-- Nor after a fault at the cursor. -/
theorem fail_bind_ne_ok {cause : Cause} {f : α → Scan β} :
    (fail cause >>= f) c = .ok b c' ↔ False := by
  rw [bind_eq_ok]
  simp [fail_ne_ok]

/-- A choice runs the branch that is chosen. -/
theorem ite_run {σ : Type} {s : σ} {p : Prop} [Decidable p] {x y : ScanOf σ α} :
    (if p then x else y) s = if p then x s else y s := by
  split <;> rfl

theorem here_bind {f : Cursor → Scan β} : (here >>= f) c = f c c := rfl

/-- What is required is there if the scan goes on. -/
theorem require_bind_eq_ok {a? : Option α} {what : Expected} {f : α → Scan β} :
    (require a? what >>= f) c = .ok b c' ↔ ∃ a, a? = some a ∧ f a c = .ok b c' := by
  cases a? with
  | none =>
    rw [require, fail_bind_ne_ok]
    simp
  | some a₁ =>
    rw [require, bind_run (pure_run (a := a₁))]
    simp

theorem position_bind {f : Nat → Scan β} : (position >>= f) c = f c.position c := rfl

theorem ahead_bind {f : List Char → Scan β} : (ahead >>= f) c = f c.rest c := rfl

theorem skip_bind {n : Nat} {f : Unit → Scan β} :
    (skip n >>= f) c = f () (c.skip n) := rfl

theorem skipBlanks_bind {f : Unit → Scan β} :
    (skipBlanks >>= f) c = f () c.pastBlanks := rfl

theorem skipInlineBlanks_bind {f : Unit → Scan β} :
    (skipInlineBlanks >>= f) c = f () (c.skipBlanks false) := rfl

theorem sees_bind {pattern : Pattern} {f : Bool → Scan β} :
    (sees pattern >>= f) c = f (c.sees pattern) c := rfl

/-- What a pattern takes, and how far it moves the cursor; one that is not found takes nothing. -/
theorem piece_run (pattern : Pattern) (c : Cursor) :
    piece pattern c = .ok (pattern.piece c.rest) (c.skip (pattern.length c.rest)) := by
  have hrun : piece pattern c =
      (c.take? pattern).elim (.ok [] c) fun taken => .ok taken.1 taken.2 := by
    rw [piece, here_bind]
    cases c.take? pattern <;> rfl
  rw [hrun, Cursor.take?]
  cases hpiece : pattern.piece c.rest with
  | nil =>
    rw [Cursor.skip_of_take_eq_nil hpiece]
    rfl
  | cons y ys => rfl

/-- What a run of a class takes, and how far it moves the cursor. -/
theorem takeWhile_run (p : Char → Bool) (c : Cursor) :
    takeWhile p c = .ok (c.rest.takeWhile p) (c.skip (c.rest.takeWhile p).length) := by
  have hrun : takeWhile p c =
      (c.takeWhile? p).elim (.ok [] c) fun taken => .ok taken.1 taken.2 := by
    rw [takeWhile, here_bind]
    cases c.takeWhile? p <;> rfl
  rw [hrun, Cursor.takeWhile?, Cursor.skipWhile_eq_skip]
  cases c.rest.takeWhile p with
  | nil =>
    rw [List.length_nil, Cursor.skip_zero]
    rfl
  | cons y ys => rfl

/-- A run of a class is passed. -/
theorem takeWhile_eq_ok {p : Char → Bool} {text : List Char} (h : takeWhile p c = .ok text c') :
    c.Passes text c' ∧ ∀ x ∈ text, p x = true := by
  rw [takeWhile_run] at h
  cases h
  exact ⟨Cursor.passes_skip List.takeWhile_append_dropWhile.symm,
    fun _ hx => List.all_eq_true.1 List.all_takeWhile _ hx⟩

/-- A run of a class is taken if the text behind it begins with no member. -/
theorem takeWhile_append_run {p : Char → Bool} {text rest : List Char}
    (hc : c.rest = text ++ rest) (htext : ∀ x ∈ text, p x = true)
    (hrest : ∀ x ∈ rest.head?, p x = false) :
    takeWhile p c = .ok text (c.skip text.length) := by
  rw [takeWhile_run, hc, Text.takeWhile_append htext hrest]

/-- A character of a class is taken where it is the next one. -/
theorem piece_one_run {p : Char → Bool} {x : Char} (hx : c.rest.head? = some x)
    (hp : p x = true) : piece (.one p) c = .ok [x] (c.skip 1) := by
  rw [piece_run, Pattern.piece, Cursor.rest_eq_cons_skip hx]
  simp [Pattern.one, hp]

/-- One character of a class is not taken where none stands. -/
theorem piece_one_none_run {p : Char → Bool} (h : ∀ x ∈ c.rest.head?, p x = false) :
    piece (.one p) c = .ok [] c := by
  rw [piece_run, Pattern.piece]
  cases hrest : c.rest with
  | nil => simp [Pattern.one, Cursor.skip_zero]
  | cons y ys =>
    rw [hrest] at h
    simp [Pattern.one, h y rfl, Cursor.skip_zero]

/-- At most one character of a class is passed. -/
theorem piece_one_eq_ok {p : Char → Bool} {text : List Char}
    (h : piece (.one p) c = .ok text c') :
    c.Passes text c' ∧ (text = [] ∨ ∃ x, text = [x] ∧ p x = true) := by
  by_cases hx : ∃ x, c.rest.head? = some x ∧ p x = true
  · obtain ⟨x, hx, hp⟩ := hx
    rw [piece_one_run hx hp] at h
    cases h
    exact ⟨Cursor.passes_skip (Cursor.rest_eq_cons_skip hx), Or.inr ⟨x, rfl, hp⟩⟩
  · rw [piece_one_none_run fun x hhead => Bool.eq_false_iff.2 fun hp => hx ⟨x, hhead, hp⟩] at h
    cases h
    exact ⟨.refl c, Or.inl rfl⟩

/-- A pattern is taken if it is there, and the scan is told. -/
theorem takes_run (pattern : Pattern) (c : Cursor) :
    takes pattern c = .ok (c.sees pattern) (c.skip (pattern.length c.rest)) := by
  rw [takes, bind_run (piece_run pattern c)]
  rfl

/-- A character is taken where it is the next one. -/
theorem takes_char_run (x : Char) (c : Cursor) :
    takes (.char x) c = if c.rest.head? = some x then .ok true (c.skip 1) else .ok false c := by
  rw [takes_run, Pattern.length_char]
  by_cases h : c.rest.head? = some x
  · have hsees : c.sees (.char x) = true := (Pattern.isAtStart_char x c.rest).2 h
    rw [if_pos h, if_pos h, hsees]
  · have hsees : c.sees (.char x) = false :=
      Bool.eq_false_iff.2 (mt (Pattern.isAtStart_char x c.rest).1 h)
    rw [if_neg h, if_neg h, hsees, Cursor.skip_of_take_eq_nil rfl]

/-- A character is taken if it is there, and the scan goes on either way. -/
theorem takes_char_bind {x : Char} {f : Bool → Scan β} :
    (takes (.char x) >>= f) c =
      if c.rest.head? = some x then f true (c.skip 1) else f false c := by
  by_cases h : c.rest.head? = some x
  · rw [bind_run ((takes_char_run x c).trans (if_pos h)), if_pos h]
  · rw [bind_run ((takes_char_run x c).trans (if_neg h)), if_neg h]

/-- A character that is expected is taken. -/
theorem expect_char_run {x : Char} {what : Expected} (h : c.rest.head? = some x) :
    expect (.char x) what c = .ok () (c.skip 1) := by
  rw [expect, takes_char_bind, if_pos h]
  rfl

/-- A character that was expected has been there. -/
theorem expect_char_bind_eq_ok {x : Char} {what : Expected} {f : Unit → Scan β} :
    (expect (.char x) what >>= f) c = .ok b c' ↔
      c.rest.head? = some x ∧ f () (c.skip 1) = .ok b c' := by
  have hexpect : ∀ {u : Unit} {c₁ : Cursor},
      expect (.char x) what c = .ok u c₁ ↔ c.rest.head? = some x ∧ c.skip 1 = c₁ := by
    intro u c₁
    rw [expect, takes_char_bind]
    split
    next h => simp [h, pure_eq_ok]
    next h => simp [h, fail_ne_ok]
  rw [bind_eq_ok]
  constructor
  · rintro ⟨u, c₁, hu, hf⟩
    obtain ⟨hhead, rfl⟩ := hexpect.1 hu
    exact ⟨hhead, hf⟩
  · rintro ⟨hhead, hf⟩
    exact ⟨(), _, hexpect.2 ⟨hhead, rfl⟩, hf⟩

/-- The word at the cursor is taken as a whole. -/
theorem takeWord?_run (c : Cursor) :
    takeWord? c = .ok c.word? (c.skip (Text.leadingWord c.rest).length) := by
  have hrun : takeWord? c =
      c.takeWord?.elim (.ok none c) fun taken => .ok (some taken.1) taken.2 := by
    rw [takeWord?, here_bind]
    cases c.takeWord? <;> rfl
  rw [hrun, Cursor.takeWord?, Cursor.word?]
  cases hword : Text.leadingWord c.rest with
  | nil =>
    rw [Cursor.skip_of_take_eq_nil rfl]
    rfl
  | cons y ys => rfl

/-- A word is taken if one stands there. -/
theorem takeWord?_bind {f : Option (List Char) → Scan β} :
    (takeWord? >>= f) c = f c.word? (c.skip (Text.leadingWord c.rest).length) :=
  bind_run (takeWord?_run c)

end Scan

/-! ## Outcomes at operators -/

namespace Token

variable {β : Type} {c : Cursor}

/-- The beginning of an access is taken where there is one. -/
theorem takeAccess?_bind {f : Option Access → Scan β} :
    (takeAccess? >>= f) c =
      f (access? c.rest) ((access? c.rest).elim c fun access => c.skip access.text.length) := by
  have hrun : takeAccess? c = .ok (access? c.rest)
      ((access? c.rest).elim c fun access => c.skip access.text.length) := by
    rw [takeAccess?, Scan.ahead_bind]
    cases access? c.rest <;> rfl
  exact Scan.bind_run hrun

/-- An update is taken if one stands there. -/
theorem takeUpdate?_bind {f : Option UpdateOperator → Scan β} :
    (takeUpdate? >>= f) c =
      f (updateOperator? c.rest)
        ((updateOperator? c.rest).elim c fun operator => c.skip operator.text.length) := by
  have hrun : takeUpdate? c = .ok (updateOperator? c.rest)
      ((updateOperator? c.rest).elim c fun operator => c.skip operator.text.length) := by
    rw [takeUpdate?, Scan.ahead_bind]
    cases updateOperator? c.rest <;> rfl
  exact Scan.bind_run hrun

end Token

end Estree
