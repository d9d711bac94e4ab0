import Estree.Proofs.Text.Residue

/-!
# What the parentheses of a text cost

`balance` adds up what a text spends on parentheses, in such a way that no text of a tree spends
less than the one that is written for it. So a text that spends less has been read as another tree,
or not at all, and this is how it is shown that no parentheses are written for nothing.

Parentheses count one. The other counts make up for the ways in which a source may do without them:

* A point counts two, for it may stand in for parentheses before `(`: `new a.(x)` is written
  `new (a(x))()`.
* Parentheses with nothing in between count minus one, because they may be left out after `new`, and
  with them the parentheses of a callee: `new ++a` is written `new (++a)()`.
* Digits alone in parentheses count nothing, because a blank does as well: `1 .x` is written
  `(1).x`.
* A digit with a point right after it counts minus one, so that `1.x` costs less than either.

The cost of a character depends on what follows it, so a text does not simply cost what its pieces
do. It does if the second piece does not begin with a point and a parenthesis at the end of the
first one sees as much of the rest as it needs (`balance_append`); `joint` is the digit before a
point that falls on the seam. The last section takes one pair of parentheses out of a text: what is
left costs less by what the pair has cost, and a neighbour of the pair may cost less as well, but
never more (`balance_remove_le`).
-/

namespace Estree

namespace Text

variable {x : Char} {xs text rest rest' : List Char}

/-- What an opening parenthesis costs, by what follows it. -/
def openToll (rest : List Char) : Int :=
  if nextSolid? rest = some ')' then -1
  else if (rest.dropWhile Char.isDigit).head? = some ')' then 0
  else 1

/-- What a character costs. -/
def toll (x : Char) (rest : List Char) : Int :=
  if x = '(' then openToll rest
  else if x = '.' then 2
  else if x.isDigit = true ∧ rest.head? = some '.' then -1
  else 0

/-- What all characters of a text cost. -/
def balance : List Char → Int
  | [] => 0
  | x :: rest => toll x rest + balance rest

/-- What a text costs less where the rest begins with a point. -/
def joint (text rest : List Char) : Int :=
  if text.getLast?.any Char.isDigit = true ∧ rest.head? = some '.' then 1 else 0

/-- Characters that cost nothing, wherever they stand. -/
def IsFree (x : Char) : Prop :=
  x ≠ '(' ∧ x ≠ '.' ∧ x.isDigit = false

instance : DecidablePred IsFree := fun _ => inferInstanceAs (Decidable (_ ∧ _ ∧ _))

/-- No parenthesis costs more than one. -/
theorem openToll_le (rest : List Char) : openToll rest ≤ 1 := by
  unfold openToll
  split
  next => decide
  next =>
    split
    next => decide
    next => decide

/-- Nor does it cost less than minus one. -/
theorem le_openToll (rest : List Char) : -1 ≤ openToll rest := by
  unfold openToll
  split
  next => decide
  next =>
    split
    next => decide
    next => decide

/-- Before anything but digits alone a parenthesis costs one. -/
theorem openToll_eq_one (h : nextSolid? rest ≠ some ')')
    (hdigits : (rest.dropWhile Char.isDigit).head? ≠ some ')') : openToll rest = 1 := by
  unfold openToll
  rw [if_neg h, if_neg hdigits]

/-- Before digits alone it costs nothing. -/
theorem openToll_digits (h : nextSolid? rest ≠ some ')')
    (hdigits : (rest.dropWhile Char.isDigit).head? = some ')') : openToll rest = 0 := by
  unfold openToll
  rw [if_neg h, if_pos hdigits]

/-- Before its own other half it costs minus one. -/
theorem openToll_empty (h : nextSolid? rest = some ')') : openToll rest = -1 := by
  unfold openToll
  rw [if_pos h]

/-! ## Pieces of a text -/

/-- At a seam there is one digit before a point, or none. -/
theorem joint_nonneg (text rest : List Char) : 0 ≤ joint text rest := by
  unfold joint
  split
  next => decide
  next => decide

/-- A text that ends in no digit costs the same everywhere. -/
theorem joint_eq_zero (h : text.getLast?.any Char.isDigit = false ∨ rest.head? ≠ some '.') :
    joint text rest = 0 := by
  unfold joint
  rw [if_neg]
  rintro ⟨hlast, hpoint⟩
  rcases h with hnone | hother
  · rw [hnone] at hlast
    cases hlast
  · exact hother hpoint

/-- Only what comes last is met by the rest. -/
theorem joint_append (hne : text ≠ []) (xs rest : List Char) :
    joint (xs ++ text) rest = joint text rest := by
  have hlast : (xs ++ text).getLast? = text.getLast? := by
    rw [List.getLast?_append, List.getLast?_eq_some_getLast hne]
    rfl
  rw [joint, joint, hlast]

/-- A parenthesis costs its toll, and the rest what it costs anyway. -/
theorem balance_open (rest : List Char) :
    balance ('(' :: rest) = openToll rest + balance rest := rfl

/-- Free characters cost nothing before any text. -/
theorem toll_eq_zero (h : IsFree x) (rest : List Char) : toll x rest = 0 := by
  obtain ⟨hparen, hpoint, hdigit⟩ := h
  rw [toll, if_neg hparen, if_neg hpoint, if_neg]
  rw [hdigit]
  exact fun h => Bool.noConfusion h.1

/-- A free character may be left out. -/
theorem balance_cons (h : IsFree x) : balance (x :: rest) = balance rest := by
  rw [balance, toll_eq_zero h, Int.zero_add]

/-- A text without opening parentheses costs what it costs alone, but for a point after it. -/
theorem balance_append (h : ∀ x ∈ xs, x ≠ '(') :
    balance (xs ++ rest) = balance xs - joint xs rest + balance rest := by
  induction xs with
  | nil =>
    show balance rest = 0 - 0 + balance rest
    omega
  | cons x xs ih =>
    obtain ⟨hx, hxs⟩ := List.forall_mem_cons.1 h
    rw [List.cons_append, balance, ih hxs, balance]
    cases xs with
    | nil =>
      have htoll : toll x rest = toll x [] - joint [x] rest := by
        unfold toll joint
        rw [if_neg hx, if_neg hx]
        by_cases hpoint : x = '.'
        · subst hpoint
          rfl
        · rw [if_neg hpoint, if_neg hpoint]
          by_cases hjoint : x.isDigit = true ∧ rest.head? = some '.'
          · rw [if_pos hjoint, if_neg (fun h => nomatch h.2), if_pos (by simpa using hjoint)]
            rfl
          · rw [if_neg hjoint, if_neg (fun h => nomatch h.2), if_neg (by simpa using hjoint)]
            rfl
      have hnil : joint [] rest = 0 := rfl
      rw [List.nil_append, htoll, hnil]
      omega
    | cons y ys =>
      have hjoint : joint (x :: y :: ys) rest = joint (y :: ys) rest :=
        joint_append (List.cons_ne_nil y ys) [x] rest
      have htoll : toll x (y :: ys ++ rest) = toll x (y :: ys) := by
        unfold toll
        rw [if_neg hx, if_neg hx]
        rfl
      rw [hjoint, htoll]
      omega

/-- Without points and parentheses there is nothing to pay. -/
theorem balance_eq_zero (h : ∀ x ∈ xs, x ≠ '(' ∧ x ≠ '.') : balance xs = 0 := by
  induction xs with
  | nil => rfl
  | cons x xs ih =>
    obtain ⟨⟨hparen, hpoint⟩, hxs⟩ := List.forall_mem_cons.1 h
    have hnext : xs.head? ≠ some '.' := fun hnext =>
      (hxs '.' (List.mem_of_mem_head? hnext)).2 rfl
    rw [balance, ih hxs, toll, if_neg hparen, if_neg hpoint, if_neg fun h => hnext h.2]
    rfl

/-- Free characters before a text cost nothing. -/
theorem balance_append_free (h : ∀ x ∈ xs, IsFree x) : balance (xs ++ rest) = balance rest := by
  induction xs with
  | nil => rfl
  | cons x xs ih =>
    obtain ⟨hx, hxs⟩ := List.forall_mem_cons.1 h
    rw [List.cons_append, balance_cons hx, ih hxs]

/-- Nor do they change what is met by the rest. -/
theorem joint_append_free (h : ∀ x ∈ xs, IsFree x) (text rest : List Char) :
    joint (xs ++ text) rest = joint text rest := by
  by_cases hnil : text = []
  · obtain rfl := hnil
    rw [List.append_nil]
    refine (joint_eq_zero (Or.inl ?_)).trans (show joint [] rest = 0 from rfl).symm
    cases hlast : xs.getLast? with
    | none => rfl
    | some x => exact (h x (List.mem_of_mem_getLast? hlast)).2.2
  · exact joint_append hnil xs rest

/-- Blanks are free. -/
theorem isFree_of_isBlank (h : isBlank x = true) : IsFree x := by
  refine ⟨?_, ?_, Bool.eq_false_iff.2 fun hdigit => ?_⟩
  · rintro rfl
    exact absurd h (by decide)
  · rintro rfl
    exact absurd h (by decide)
  · rw [isBlank_of_isDigit hdigit] at h
    cases h

/-- What is skipped costs nothing. -/
theorem Skips.balance_eq (h : Skips text rest) : balance text = balance rest := by
  obtain ⟨blanks, rfl, hblanks⟩ := h
  exact balance_append_free fun x hx => isFree_of_isBlank (hblanks x hx)

/-! ## One pair of parentheses less -/

/-- Where the run of a class ends is seen in the first text, or else in the second. -/
theorem head?_dropWhile_append (p : Char → Bool) (xs rest : List Char) :
    ((xs ++ rest).dropWhile p).head? = ((xs.dropWhile p).head?).or (rest.dropWhile p).head? := by
  induction xs with
  | nil => rfl
  | cons x xs ih =>
    by_cases hx : p x = true
    · rw [List.cons_append, List.dropWhile_cons_of_pos hx, ih, List.dropWhile_cons_of_pos hx]
    · rw [List.cons_append, List.dropWhile_cons_of_neg hx, List.dropWhile_cons_of_neg hx]
      rfl

/-- What looks ahead to an opening parenthesis finds no closing one before it, so without it nothing
costs more. -/
theorem openToll_append_le (xs rest rest' : List Char) :
    openToll (xs ++ rest') ≤ openToll (xs ++ '(' :: rest) := by
  have hparen : ∀ p : Char → Bool, p '(' = false → (('(' :: rest).dropWhile p).head? = some '(' :=
    fun p hp => by rw [List.dropWhile_cons_of_neg (Bool.eq_false_iff.1 hp)]; rfl
  have hsolid : nextSolid? (xs ++ '(' :: rest) = ((xs.dropWhile isBlank).head?).or (some '(') := by
    rw [nextSolid?, head?_dropWhile_append, hparen isBlank (by decide)]
  have hdigit : ((xs ++ '(' :: rest).dropWhile Char.isDigit).head? =
      ((xs.dropWhile Char.isDigit).head?).or (some '(') := by
    rw [head?_dropWhile_append, hparen Char.isDigit (by decide)]
  by_cases hclose : (xs.dropWhile isBlank).head? = some ')'
  · have hsolid' : nextSolid? (xs ++ rest') = some ')' := by
      rw [nextSolid?, head?_dropWhile_append, hclose]
      rfl
    refine Int.le_of_eq ?_
    rw [openToll_empty hsolid', openToll_empty (by rw [hsolid, hclose]; rfl)]
  · have hne : nextSolid? (xs ++ '(' :: rest) ≠ some ')' := by
      rw [hsolid]
      cases hhead : (xs.dropWhile isBlank).head? with
      | none => decide
      | some x => rwa [hhead] at hclose
    by_cases hdigits : (xs.dropWhile Char.isDigit).head? = some ')'
    · -- After digits the parenthesis is closed in any case.
      have hdigits' : ((xs ++ rest').dropWhile Char.isDigit).head? = some ')' := by
        rw [head?_dropWhile_append, hdigits]
        rfl
      rw [openToll_digits hne (by rw [hdigit, hdigits]; rfl)]
      unfold openToll
      rw [if_pos hdigits']
      split
      next => decide
      next => decide
    · have hdigits' : ((xs ++ '(' :: rest).dropWhile Char.isDigit).head? ≠ some ')' := by
        rw [hdigit]
        cases hhead : (xs.dropWhile Char.isDigit).head? with
        | none => decide
        | some x => rwa [hhead] at hdigits
      rw [openToll_eq_one hne hdigits']
      exact openToll_le _

/-- A digit that has met the parenthesis may meet a point. -/
theorem toll_append_le (x : Char) (xs rest rest' : List Char) :
    toll x (xs ++ rest') ≤ toll x (xs ++ '(' :: rest) := by
  unfold toll
  split
  next => exact openToll_append_le xs rest rest'
  next =>
    split
    next => exact Int.le_refl _
    next =>
      cases xs with
      | nil =>
        have hparen : ¬(x.isDigit = true ∧ some '(' = some '.') := fun h =>
          absurd h.2 (by decide)
        show _ ≤ (if x.isDigit = true ∧ some '(' = some '.' then (-1 : Int) else 0)
        rw [if_neg hparen]
        split
        next => decide
        next => decide
      | cons y ys => exact Int.le_refl _

/-- Without an opening parenthesis what precedes it costs no more. -/
theorem balance_remove_le (xs rest rest' : List Char) :
    balance (xs ++ rest') + balance ('(' :: rest) ≤
      balance (xs ++ '(' :: rest) + balance rest' := by
  induction xs with
  | nil => exact Int.le_of_eq (Int.add_comm _ _)
  | cons x xs ih =>
    have htoll : toll x (xs ++ rest') ≤ toll x (xs ++ '(' :: rest) :=
      toll_append_le x xs rest rest'
    show toll x (xs ++ rest') + balance (xs ++ rest') + _ ≤
      toll x (xs ++ '(' :: rest) + balance (xs ++ '(' :: rest) + _
    omega

end Text

end Estree
