import Estree.Proofs.Text.Parentheses
import Estree.Proofs.Text.Slices

/-!
# Parentheses around a piece of a text

A tree does not tell whether a node was read in parentheses: a group leaves no node, and the span of
a node does not reach over it. The text does. A node was read in a group exactly if its piece of the
text stands between two parentheses that match each other, and nothing but blanks and further
parentheses lies between them and the piece:

> `IsEnclosed before piece after`: `before` ends in a parenthesis and an edge, `after` begins with
> an edge and a parenthesis, and the edges match with the piece between them.

It does not do to look at the characters right beside the piece. The access of `((a).b)` begins
behind two parentheses, and only the first of them is around it: the other one is closed within the
piece `a).b`. That is why the edges have to match *with* the piece.

The condition asks for a split of the text, so it is made decidable by listing the edges that there
are (`edgesUpTo`). What the reader needs are two reasons why a piece is **not** enclosed:

> `not_isEnclosed_of_follow`: what follows the piece, blanks apart, is no parenthesis that closes.
> `not_isEnclosed_of_matched`: all parentheses that stand directly before the piece are closed
> within it.
-/

namespace Estree

namespace Text

variable {paren x : Char} {xs ys edge before lead piece after : List Char}

/-- Around a piece of a text stand two parentheses that match each other, with nothing but blanks
and more parentheses between them and the piece. -/
def IsEnclosed (before piece after : List Char) : Prop :=
  ∃ first edge edge' last, before = first ++ '(' :: edge ∧ after = edge' ++ ')' :: last ∧
    IsEdge '(' edge ∧ IsEdge ')' edge' ∧ Matched (edge ++ (piece ++ edge'))

/-! ## Edges are found -/

/-- The edges that a text begins with before a parenthesis of their kind. -/
def edgesUpTo (paren : Char) : List Char → List (List Char)
  | [] => []
  | x :: xs =>
    let longer := (edgesUpTo paren xs).map (x :: ·)
    if x = paren then [] :: longer
    else if isBlank x then longer
    else []

/-- The list has all such edges and no others. -/
theorem mem_edgesUpTo :
    edge ∈ edgesUpTo paren xs ↔ ∃ rest, xs = edge ++ paren :: rest ∧ IsEdge paren edge := by
  induction xs generalizing edge with
  | nil => simp [edgesUpTo]
  | cons x xs ih =>
    have hlonger : edge ∈ (edgesUpTo paren xs).map (x :: ·) ↔
        ∃ rest inner, edge = x :: inner ∧ xs = inner ++ paren :: rest ∧ IsEdge paren inner := by
      rw [List.mem_map]
      constructor
      · rintro ⟨inner, hinner, rfl⟩
        obtain ⟨rest, hxs, hedge⟩ := ih.1 hinner
        exact ⟨rest, inner, rfl, hxs, hedge⟩
      · rintro ⟨rest, inner, rfl, hxs, hedge⟩
        exact ⟨inner, ih.2 ⟨rest, hxs, hedge⟩, rfl⟩
    -- An edge that is not empty begins with the first character, and that belongs to an edge.
    have hsplit : (∃ rest, x :: xs = edge ++ paren :: rest ∧ IsEdge paren edge) ↔
        (edge = [] ∧ x = paren) ∨ (x = paren ∨ isBlank x = true) ∧
          ∃ rest inner, edge = x :: inner ∧ xs = inner ++ paren :: rest ∧ IsEdge paren inner := by
      constructor
      · rintro ⟨rest, hsplit, hedge⟩
        cases edge with
        | nil =>
          cases hsplit
          exact Or.inl ⟨rfl, rfl⟩
        | cons y inner =>
          cases hsplit
          obtain ⟨hx, hinner⟩ := List.forall_mem_cons.1 hedge
          exact Or.inr ⟨hx, rest, inner, rfl, rfl, hinner⟩
      · rintro (⟨rfl, rfl⟩ | ⟨hx, rest, inner, rfl, rfl, hinner⟩)
        · exact ⟨xs, rfl, isEdge_nil x⟩
        · exact ⟨rest, rfl, List.forall_mem_cons.2 ⟨hx, hinner⟩⟩
    rw [hsplit, ← hlonger, edgesUpTo]
    by_cases hparen : x = paren
    · simp [hparen]
    · by_cases hblank : isBlank x = true
      · simp [hparen, hblank]
      · simp [hparen, hblank]

theorem isEnclosed_iff : IsEnclosed before piece after ↔
    ∃ edge ∈ edgesUpTo '(' before.reverse, ∃ edge' ∈ edgesUpTo ')' after,
      Matched (edge.reverse ++ (piece ++ edge')) := by
  constructor
  · rintro ⟨first, edge, edge', last, rfl, rfl, hedge, hedge', hmatched⟩
    refine ⟨edge.reverse, mem_edgesUpTo.2 ⟨first.reverse, by simp, ?_⟩, edge',
      mem_edgesUpTo.2 ⟨last, rfl, hedge'⟩, by rwa [List.reverse_reverse]⟩
    exact fun x hx => hedge x (List.mem_reverse.1 hx)
  · rintro ⟨edge, hedge, edge', hedge', hmatched⟩
    obtain ⟨first, hbefore, hedge⟩ := mem_edgesUpTo.1 hedge
    obtain ⟨last, hafter, hedge'⟩ := mem_edgesUpTo.1 hedge'
    refine ⟨first.reverse, edge.reverse, edge', last, ?_, hafter, ?_, hedge', hmatched⟩
    · rw [← List.reverse_reverse before, hbefore]
      simp
    · exact fun x hx => hedge x (List.mem_reverse.1 hx)

instance (before piece after : List Char) : Decidable (IsEnclosed before piece after) :=
  decidable_of_iff _ isEnclosed_iff.symm

/-! ## Pieces that are not enclosed -/

/-- Behind an enclosed piece the first character that is no blank is a parenthesis that closes. -/
theorem not_isEnclosed_of_follow (h : (after.dropWhile isBlank).head? ≠ some ')') :
    ¬IsEnclosed before piece after := by
  rintro ⟨-, -, edge', last, -, rfl, -, hedge', -⟩
  have hclose : ∀ rest, (')' :: rest).dropWhile isBlank = ')' :: rest := fun rest =>
    List.dropWhile_cons_of_neg (by decide)
  rcases hedge'.blank_or with hblank | ⟨blanks, rest, rfl, hblanks, -⟩
  · rw [List.dropWhile_append_of_pos hblank, hclose] at h
    exact h rfl
  · rw [List.append_assoc, List.dropWhile_append_of_pos hblanks, List.cons_append, hclose] at h
    exact h rfl

/-- A text that ends in an edge behind some other character ends in no parenthesis but those of the
edge. -/
theorem exists_lead_eq {first first' : List Char} (hx : x ≠ '(') (hblank : isBlank x = false)
    (hedge : IsEdge '(' edge) (h : first ++ x :: lead = first' ++ '(' :: edge) :
    ∃ outer, lead = outer ++ '(' :: edge := by
  rcases List.append_eq_append_iff.1 h with ⟨rest, -, hrest⟩ | ⟨rest, -, hrest⟩
  · cases rest with
    | nil =>
      cases hrest
      exact absurd rfl hx
    | cons y outer =>
      cases hrest
      exact ⟨outer, rfl⟩
  · -- The other character would be one of the edge.
    have hmem : x ∈ '(' :: edge := by
      rw [hrest]
      exact List.mem_append_right _ (List.mem_cons_self ..)
    rcases List.mem_cons.1 hmem with hopen | hmem
    · exact absurd hopen hx
    · rcases hedge x hmem with hopen | hxblank
      · exact absurd hopen hx
      · rw [hblank] at hxblank
        cases hxblank

/-- A piece is not enclosed if all parentheses directly before it are closed within it: one of them
that is left out of the matching text would have to stay open. -/
theorem not_isEnclosed_of_matched {first : List Char} (hx : x ≠ '(') (hblank : isBlank x = false)
    (hlead : IsEdge '(' lead) (hmatched : Matched (lead ++ xs)) :
    ¬IsEnclosed (first ++ x :: lead) (xs ++ ys) after := by
  rintro ⟨first', edge, edge', last, hbefore, -, hedge, -, hinner⟩
  obtain ⟨outer, rfl⟩ := exists_lead_eq hx hblank hedge hbefore
  have houter : IsEdge '(' outer := (List.forall_mem_append.1 hlead).1
  obtain ⟨k, hk⟩ : ∃ k, openBehind 0 (edge ++ xs) = some k := by
    rw [List.append_assoc, ← List.append_assoc edge, Matched, openBehind_append] at hinner
    cases hrun : openBehind 0 (edge ++ xs) with
    | none =>
      rw [hrun] at hinner
      cases hinner
    | some k => exact ⟨k, rfl⟩
  have hopen : openBehind (0 + outer.count '(' + 1) (edge ++ xs) = some 0 := by
    rwa [List.append_assoc, Matched, openBehind_append, houter.openBehind_open, Option.bind_some,
      List.cons_append, openBehind_open] at hmatched
  have hadd := openBehind_add (m := outer.count '(' + 1) hk
  rw [← Nat.add_assoc, hopen] at hadd
  cases hadd

end Text

/-! ## The piece at a span -/

namespace Span

/-- Whether the piece of the text at the span is enclosed. -/
def isEnclosed (span : Span) (source : String) : Bool :=
  let enclosed? : Option Bool := do
    let before ← Text.takeBytes? span.start source.toList
    let piece ← Text.takeBytes? (span.stop - span.start) (source.toList.drop before.length)
    return decide
      (Text.IsEnclosed before piece (source.toList.drop (before.length + piece.length)))
  enclosed?.getD false

variable {span : Span} {source : String} {before piece after : List Char}

/-- What is enclosed is the piece between the two ends of the span. -/
theorem isEnclosed_eq (hsource : source.toList = before ++ (piece ++ after))
    (hstart : Text.utf8Size before = span.start)
    (hstop : span.start + Text.utf8Size piece = span.stop) :
    span.isEnclosed source = decide (Text.IsEnclosed before piece after) := by
  have hsize : span.stop - span.start = Text.utf8Size piece := by omega
  have hdrop : (before ++ (piece ++ after)).drop before.length = piece ++ after := List.drop_left
  have hafter : (before ++ (piece ++ after)).drop (before.length + piece.length) = after := by
    rw [← List.drop_drop, hdrop, List.drop_left]
  rw [isEnclosed, hsource, ← hstart, Text.takeBytes?_append, hstart, hsize]
  show ((Text.takeBytes? _ ((before ++ (piece ++ after)).drop before.length)).bind _).getD false = _
  rw [hdrop, Text.takeBytes?_append]
  show decide (Text.IsEnclosed before piece
    ((before ++ (piece ++ after)).drop (before.length + piece.length))) = _
  rw [hafter]

end Span

/-- The callee of `new ((f).g)()` is enclosed, with a parenthesis of its own piece closed in it;
that of `new (f).g()` is not. -/
example : (Span.mk 6 10).isEnclosed "new ((f).g)()" = true ∧
    (Span.mk 5 9).isEnclosed "new (f).g()" = false := by
  decide +kernel

end Estree
