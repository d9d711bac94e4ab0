import Estree.Text.Blank

/-!
# Parentheses that match

The parentheses of a text match if none is closed that is not open and none is left open. Whatever
stands around such a text, it leaves as many open as were before it; so the parenthesis that closes
a group is the first one behind matching text, and there is no choice which (`Matched.unique`).

> `openBehind`: how many parentheses are open behind a text, if so many are open before it. It is
> computed from the front, so it splits along any two pieces (`openBehind_append`), and with more
> open before the text, as many more are open behind it (`openBehind_add`).
> `Matched`: none open before, none open behind.

The second half is about the edges of a text, blanks with parentheses of one kind between them.
Around a text that matches by itself, two edges match exactly if as many close as open
(`Matched.between_iff`). Then they are closed pair by pair from the outside (`Matched.peel`): either
both are blanks, or the first parenthesis is closed by the last one, and what is between them
matches too.
-/

namespace Estree

namespace Text

/-- How many parentheses are open behind the text, with so many open before it; nothing if one is
closed that is not open. -/
def openBehind : (before : Nat) → List Char → Option Nat
  | before, [] => some before
  | before, x :: xs =>
    if x = '(' then openBehind (before + 1) xs
    else if x = ')' then
      match before with
      | 0 => none
      | before + 1 => openBehind before xs
    else openBehind before xs

/-- The parentheses of the text match. -/
def Matched (text : List Char) : Prop :=
  openBehind 0 text = some 0

instance (text : List Char) : Decidable (Matched text) :=
  inferInstanceAs (Decidable (openBehind 0 text = some 0))

variable {m n : Nat} {x : Char} {xs ys text before after : List Char}

/-! ## Texts one after the other -/

/-- One more is open. -/
theorem openBehind_open : openBehind n ('(' :: xs) = openBehind (n + 1) xs := rfl

/-- One less is open. -/
theorem openBehind_close : openBehind (n + 1) (')' :: xs) = openBehind n xs := rfl

/-- Other characters open and close nothing. -/
theorem openBehind_other (hopen : x ≠ '(') (hclose : x ≠ ')') :
    openBehind n (x :: xs) = openBehind n xs := by
  rw [openBehind.eq_def]
  dsimp only
  rw [if_neg hopen, if_neg hclose]

/-- A text goes on with as many open as its first part has left. -/
theorem openBehind_append :
    openBehind n (xs ++ ys) = (openBehind n xs).bind fun k => openBehind k ys := by
  induction xs generalizing n with
  | nil => rfl
  | cons x xs ih =>
    by_cases hopen : x = '('
    · subst hopen
      rw [List.cons_append, openBehind_open, openBehind_open, ih]
    · by_cases hclose : x = ')'
      · subst hclose
        cases n with
        | zero => rfl
        | succ n => rw [List.cons_append, openBehind_close, openBehind_close, ih]
      · rw [List.cons_append, openBehind_other hopen hclose, openBehind_other hopen hclose, ih]

/-- With more parentheses open before, as many more are open behind. -/
theorem openBehind_add {k : Nat} (h : openBehind n xs = some k) :
    openBehind (n + m) xs = some (k + m) := by
  induction xs generalizing n with
  | nil =>
    cases h
    rfl
  | cons x xs ih =>
    by_cases hopen : x = '('
    · subst hopen
      rw [openBehind_open] at h ⊢
      have hadd := ih h
      rwa [Nat.add_right_comm] at hadd
    · by_cases hclose : x = ')'
      · subst hclose
        cases n with
        | zero => cases h
        | succ n =>
          rw [openBehind_close] at h
          rw [Nat.add_right_comm, openBehind_close]
          exact ih h
      · rw [openBehind_other hopen hclose] at h ⊢
        exact ih h

/-- A matching text leaves as many open as there were. -/
theorem Matched.openBehind_eq (h : Matched xs) (n : Nat) : openBehind n xs = some n := by
  have hadd : openBehind (0 + n) xs = some (0 + n) := openBehind_add h
  rwa [Nat.zero_add] at hadd

/-- The empty text matches. -/
theorem matched_nil : Matched [] := rfl

/-- Matching texts one after the other. -/
theorem Matched.append (hxs : Matched xs) (hys : Matched ys) : Matched (xs ++ ys) := by
  rw [Matched, openBehind_append, hxs]
  exact hys

/-- A matching text in parentheses. -/
theorem Matched.group (h : Matched xs) : Matched ('(' :: (xs ++ [')'])) := by
  rw [Matched, openBehind_open, openBehind_append, h.openBehind_eq]
  rfl

/-- A text without parentheses. -/
theorem matched_of_forall (h : ∀ x ∈ xs, x ≠ '(' ∧ x ≠ ')') : Matched xs := by
  induction xs with
  | nil => rfl
  | cons x xs ih =>
    obtain ⟨hx, hxs⟩ := List.forall_mem_cons.1 h
    rw [Matched, openBehind_other hx.1 hx.2]
    exact ih hxs

/-- Behind matching text and a parenthesis that closes there is no more matching text. -/
theorem Matched.not_append_close (h : Matched xs) : ¬Matched (xs ++ ')' :: ys) := by
  intro happend
  rw [Matched, openBehind_append, h] at happend
  cases happend

/-- The parenthesis that closes a group is the first one that may. -/
theorem Matched.unique (hxs : Matched xs) (hys : Matched ys)
    (h : xs ++ ')' :: before = ys ++ ')' :: after) : xs = ys ∧ before = after := by
  rcases List.append_eq_append_iff.1 h with ⟨rest, rfl, hrest⟩ | ⟨rest, rfl, hrest⟩
  · cases rest with
    | nil =>
      cases hrest
      exact ⟨(List.append_nil xs).symm, rfl⟩
    | cons y rest =>
      cases hrest
      exact absurd hys hxs.not_append_close
  · cases rest with
    | nil =>
      cases hrest
      exact ⟨List.append_nil ys, rfl⟩
    | cons y rest =>
      cases hrest
      exact absurd hxs hys.not_append_close

/-! ## Parentheses at the edges -/

/-- The text is made of blanks and of one kind of parenthesis. -/
def IsEdge (paren : Char) (text : List Char) : Prop :=
  ∀ x ∈ text, x = paren ∨ isBlank x = true

/-- The empty text is an edge. -/
theorem isEdge_nil (paren : Char) : IsEdge paren [] := nofun

/-- Two edges of one kind are one. -/
theorem IsEdge.append {paren : Char} (hxs : IsEdge paren xs) (hys : IsEdge paren ys) :
    IsEdge paren (xs ++ ys) :=
  List.forall_mem_append.2 ⟨hxs, hys⟩

/-- Blanks are an edge of both kinds. -/
theorem isEdge_of_blanks {paren : Char} (h : ∀ x ∈ xs, isBlank x = true) : IsEdge paren xs :=
  fun x hx => Or.inr (h x hx)

/-- Blanks are no parentheses. -/
theorem not_paren_of_isBlank (h : isBlank x = true) : x ≠ '(' ∧ x ≠ ')' := by
  constructor <;>
  · rintro rfl
    revert h
    decide

/-- Blanks match. -/
theorem matched_of_blanks (h : ∀ x ∈ xs, isBlank x = true) : Matched xs :=
  matched_of_forall fun x hx => not_paren_of_isBlank (h x hx)

/-- Text at the start of a node is blank, or has a first parenthesis. -/
theorem IsEdge.blank_or {paren : Char} (h : IsEdge paren xs) : (∀ x ∈ xs, isBlank x = true) ∨
    ∃ blanks rest, xs = blanks ++ paren :: rest ∧ (∀ x ∈ blanks, isBlank x = true) ∧
      IsEdge paren rest := by
  induction xs with
  | nil => exact Or.inl nofun
  | cons x xs ih =>
    obtain ⟨hx, hxs⟩ := List.forall_mem_cons.1 h
    rcases hx with rfl | hx
    · exact Or.inr ⟨[], xs, rfl, nofun, hxs⟩
    · rcases ih hxs with hblank | ⟨blanks, rest, rfl, hblanks, hrest⟩
      · exact Or.inl (List.forall_mem_cons.2 ⟨hx, hblank⟩)
      · exact Or.inr ⟨x :: blanks, rest, rfl, List.forall_mem_cons.2 ⟨hx, hblanks⟩, hrest⟩

/-- Text at the end of a node is blank, or has a last parenthesis. -/
theorem IsEdge.blank_or_last {paren : Char} (h : IsEdge paren xs) :
    (∀ x ∈ xs, isBlank x = true) ∨
    ∃ rest blanks, xs = rest ++ paren :: blanks ∧ (∀ x ∈ blanks, isBlank x = true) ∧
      IsEdge paren rest := by
  have hreverse : IsEdge paren xs.reverse := fun x hx => h x (List.mem_reverse.1 hx)
  rcases hreverse.blank_or with hblank | ⟨blanks, rest, hxs, hblanks, hrest⟩
  · exact Or.inl fun x hx => hblank x (List.mem_reverse.2 hx)
  · refine Or.inr ⟨rest.reverse, blanks.reverse, ?_, fun x hx => hblanks x (List.mem_reverse.1 hx),
      fun x hx => hrest x (List.mem_reverse.1 hx)⟩
    have heq := congrArg List.reverse hxs
    rw [List.reverse_reverse] at heq
    rw [heq]
    simp

/-- A text is opened as often as it has parentheses that open, if it has no others. -/
theorem IsEdge.openBehind_open (h : IsEdge '(' xs) : openBehind n xs = some (n + xs.count '(') := by
  induction xs generalizing n with
  | nil => rfl
  | cons x xs ih =>
    obtain ⟨hx, hxs⟩ := List.forall_mem_cons.1 h
    rcases hx with rfl | hx
    · rw [Text.openBehind_open, ih hxs, List.count_cons_self, Nat.add_right_comm, Nat.add_assoc]
    · obtain ⟨hopen, hclose⟩ := not_paren_of_isBlank hx
      rw [openBehind_other hopen hclose, ih hxs, List.count_cons_of_ne hopen]

/-- An edge closes as many as it has, if so many are open. -/
theorem IsEdge.openBehind_close (h : IsEdge ')' xs) :
    openBehind n xs = if xs.count ')' ≤ n then some (n - xs.count ')') else none := by
  induction xs generalizing n with
  | nil => rfl
  | cons x xs ih =>
    obtain ⟨hx, hxs⟩ := List.forall_mem_cons.1 h
    rcases hx with rfl | hx
    · rw [List.count_cons_self]
      cases n with
      | zero => rfl
      | succ n =>
        rw [Text.openBehind_close, ih hxs]
        simp only [Nat.add_le_add_iff_right, Nat.add_sub_add_right]
    · obtain ⟨hopen, hclose⟩ := not_paren_of_isBlank hx
      rw [openBehind_other hopen hclose, ih hxs, List.count_cons_of_ne hclose]

/-- Matching text between edges matches as a whole if the edges have as many parentheses. -/
theorem Matched.between_iff (h : Matched text) (hbefore : IsEdge '(' before)
    (hafter : IsEdge ')' after) :
    Matched (before ++ (text ++ after)) ↔ before.count '(' = after.count ')' := by
  have hrun : openBehind 0 (before ++ (text ++ after)) =
      openBehind (before.count '(') after := by
    rw [openBehind_append, hbefore.openBehind_open, Nat.zero_add]
    show openBehind (before.count '(') (text ++ after) = _
    rw [openBehind_append, h.openBehind_eq]
    rfl
  rw [Matched, hrun, hafter.openBehind_close]
  split
  · rw [Option.some_inj]
    omega
  · constructor
    · exact nofun
    · omega

/-- Blanks have no parentheses to count. -/
theorem count_eq_zero_of_blanks (h : ∀ x ∈ xs, isBlank x = true) :
    xs.count '(' = 0 ∧ xs.count ')' = 0 :=
  ⟨List.count_eq_zero.2 fun hmem => (not_paren_of_isBlank (h _ hmem)).1 rfl,
    List.count_eq_zero.2 fun hmem => (not_paren_of_isBlank (h _ hmem)).2 rfl⟩

/-- Matching text between edges that match: either both edges are blank, or there is a parenthesis
on both sides around matching text with shorter edges. -/
theorem Matched.peel (h : Matched (before ++ (text ++ after))) (htext : Matched text)
    (hbefore : IsEdge '(' before) (hafter : IsEdge ')' after) :
    (∀ x ∈ before, isBlank x = true) ∧ (∀ x ∈ after, isBlank x = true) ∨
    ∃ blanks before' after' blanks',
      before = blanks ++ '(' :: before' ∧ after = after' ++ ')' :: blanks' ∧
      (∀ x ∈ blanks, isBlank x = true) ∧ (∀ x ∈ blanks', isBlank x = true) ∧
      IsEdge '(' before' ∧ IsEdge ')' after' ∧ Matched (before' ++ (text ++ after')) := by
  have hcount := (htext.between_iff hbefore hafter).1 h
  rcases hbefore.blank_or with hblank | ⟨blanks, before', rfl, hblanks, hbefore'⟩
  · rcases hafter.blank_or_last with hblank' | ⟨after', blanks', rfl, -, -⟩
    · exact Or.inl ⟨hblank, hblank'⟩
    · rw [(count_eq_zero_of_blanks hblank).1, List.count_append, List.count_cons_self] at hcount
      omega
  · rcases hafter.blank_or_last with hblank' | ⟨after', blanks', rfl, hblanks', hafter'⟩
    · rw [(count_eq_zero_of_blanks hblank').2, List.count_append, List.count_cons_self] at hcount
      omega
    · refine Or.inr ⟨blanks, before', after', blanks', rfl, rfl, hblanks, hblanks', hbefore',
        hafter', (htext.between_iff hbefore' hafter').2 ?_⟩
      rw [List.count_append, List.count_append, List.count_cons_self, List.count_cons_self,
        (count_eq_zero_of_blanks hblanks).1, (count_eq_zero_of_blanks hblanks').2] at hcount
      omega

end Text

end Estree
