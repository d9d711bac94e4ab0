import Estree.Proofs.Grammar.Edges
import Estree.Proofs.Grammar.Trimmed
import Estree.Proofs.Transfer.Alone

/-!
# The text of a node alone

A node is read from more than its own text where it stands in parentheses, which leave no node. If
the parentheses of its own text match, they are taken off pair by pair (`ReadsToEnd.peeled`): the
first one that opens belongs to a group (`Derives.encloses`), and the one that closes it can only be
the last one. What is left are blanks, and the text is read alone as the same tree
(`ReadsToEnd.alone`).

The text around the node is an edge on each side, of blanks and of parentheses that open or close.
The induction is on the length of the first one:

> if both are blanks, the node cannot begin before the first character that is no blank, and so the
> first edge is passed and the text from the node on is read as the node;
> otherwise the first parenthesis that opens is closed by the last one that closes, as those of the
> node match among themselves. It opens a group with nothing but blanks behind it, and this is read
> as what stands in it (`ReadsToEnd.within`), with shorter edges.

A sequence in parentheses reaches over them, so it may be read with its own pair; then it begins at
the parenthesis, and that is no part of the edge.

`Stands` is what nodes are known by in a text: some piece of the text is read as the node, to the
end of the piece.
-/

namespace Estree

open Text

/-- A text of its own is passed up to its end. -/
theorem Cursor.exists_end (position : Nat) (text : List Char) :
    ∃ c', (Cursor.mk position text).Passes text c' ∧ c'.rest = [] := by
  have hpass : (Cursor.mk position text).Passes text _ :=
    Cursor.passes_skip (List.append_nil text).symm
  exact ⟨_, hpass, Cursor.skip_length_rest (List.append_nil text).symm⟩

namespace Grammar

variable {depth : Nat} {p : Production} {c c' : Cursor} {v : p.Yield} {e : Expr}

/-! ## Groups at the beginning -/

/-- A parenthesis at the cursor opens a group of expressions. -/
def Encloses (c : Cursor) : Prop :=
  ∃ depth es c', Derives depth (.expressions true) (c.skip 1) es c' ∧ es ≠ [] ∧
    c'.rest.head? = some ')'

/-- Whether the first character that the production looks at is a parenthesis that opens. -/
def SeesOpen : Production → Cursor → Prop
  | .primary, c | .primaryForm, c => c.rest.head? = some '('
  | p, c => SkipsBlanks p ∧ c.pastBlanks.rest.head? = some '('

/-- Blanks are passed once. -/
theorem encloses_pastBlanks (h : Encloses c.pastBlanks.pastBlanks) : Encloses c.pastBlanks := by
  rwa [c.pastBlanks_pastBlanks] at h

/-- What begins with a parenthesis begins with a group. -/
theorem Derives.encloses (h : Derives depth p c v c') (hopen : SeesOpen p c) :
    Encloses c.pastBlanks := by
  have hpast : ∀ {c : Cursor}, c.pastBlanks.rest.head? = some '(' →
      c.pastBlanks.pastBlanks.rest.head? = some '(' := fun {c} hopen => by
    rwa [c.pastBlanks_pastBlanks]
  induction h with
  | lastExpression _ _ _ ih => exact ih hopen
  | moreExpressions _ _ _ ih _ => exact ih hopen
  | expression _ ih => exact ih hopen
  | unconditional _ _ ih => exact ih hopen
  | conditional _ _ _ _ _ ih _ _ => exact ih hopen
  | operands _ ih => exact ih hopen
  | noOperand _ ih => exact encloses_pastBlanks (ih ⟨trivial, hpast hopen.2⟩)
  | climb _ _ ih _ => exact encloses_pastBlanks (ih ⟨trivial, hpast hopen.2⟩)
  | unary _ ih => exact ih hopen
  | unaryOperator hop => cases (unaryOperator?_opening hopen.2 (by decide)).symm.trans hop
  | noUnaryOperator _ _ ih => exact encloses_pastBlanks (ih ⟨trivial, hpast hopen.2⟩)
  | noToken _ ih => exact encloses_pastBlanks (ih hopen.2)
  | token _ _ _ ih _ => exact encloses_pastBlanks (ih hopen.2)
  | trailingUpdate _ _ _ _ ih _ => exact encloses_pastBlanks (ih hopen.2)
  | primary _ ih => exact ih hopen
  | group _ hgroup =>
    cases hgroup with
    | grouped _ hes hclose hne => exact ⟨_, _, _, hes, hne, hclose⟩
  | leadingUpdate hop => exact absurd hopen (Token.head?_ne_open_of_updateOperator? hop)
  | new hword => exact absurd hopen (head?_ne_of_leadingWord hword (by decide) (by decide))
  | word hword hne => exact absurd hopen (head?_ne_of_leadingWord hword hne (by decide))
  | number hstart => exact absurd hopen (head?_ne_open_of_numberStart hstart)
  | arrayLiteral hbracket => cases hbracket.symm.trans hopen
  | noPrimary hparen => exact absurd hopen hparen
  | _ => exact hopen.1.elim

/-! ## Parentheses taken off -/

/-- A text that is read to its end has matching parentheses. -/
theorem ReadsToEnd.matched (h : ReadsToEnd c e) : Matched c.rest := by
  obtain ⟨_, _, hderives, hend⟩ := h
  exact hderives.matched hend

/-- Blanks before the expressions of a sequence make no difference. -/
theorem ReadsToEnd.pastBlanks (h : ReadsToEnd c e) : ReadsToEnd c.pastBlanks e := by
  obtain ⟨_, _, hderives, hend⟩ := h
  obtain ⟨es, hes, hnode⟩ := hderives.exists_expressions
  exact (readsToEnd_expressions ((derives_pastBlanks_iff (p := .expressions true) trivial).2 hes)
    hnode.symm hend).readsToEnd

/-- To the end, only one tree is read. -/
theorem ReadsToEnd.unique {e' : Expr} (h : ReadsToEnd c e) (h' : ReadsToEnd c e') : e = e' := by
  obtain ⟨_, _, hderives, -⟩ := h
  obtain ⟨_, _, hderives', -⟩ := h'
  exact Option.some.inj (hderives.unique hderives').1

/-- A group is closed by the parenthesis that matches the one it begins with. -/
theorem Encloses.exists_inner {inner rest : List Char} (h : Encloses c)
    (hopen : c.rest = '(' :: (inner ++ ')' :: rest)) (hinner : Matched inner) :
    ∃ depth es c', Derives depth (.expressions true) (c.skip 1) es c' ∧ es ≠ [] ∧
      (c.skip 1).Passes inner c' ∧ c'.rest = ')' :: rest := by
  obtain ⟨depth, es, c', hes, hne, hclose⟩ := h
  obtain ⟨piece, hpass, hpiece⟩ : (c.skip 1).Matches c' := hes.parenthesized
  have hskip : (c.skip 1).rest = inner ++ ')' :: rest := by
    rw [Cursor.skip_rest, hopen]
    rfl
  have hc' : c'.rest = ')' :: (c'.skip 1).rest := Cursor.rest_eq_cons_skip hclose
  have hsplit : inner ++ ')' :: rest = piece ++ ')' :: (c'.skip 1).rest := by
    rw [← hskip, ← hc', hpass.rest_eq]
  obtain ⟨rfl, hrest⟩ := hinner.unique hpiece hsplit
  exact ⟨depth, es, c', hes, hne, hpass, hrest ▸ hc'⟩

/-- A group with nothing but blanks behind it is read as what stands in it, or as a sequence with
its parentheses. -/
theorem ReadsToEnd.within {inner blanks : List Char} (h : ReadsToEnd c e)
    (hopen : c.rest = '(' :: (inner ++ ')' :: blanks)) (hinner : Matched inner)
    (hblanks : ∀ x ∈ blanks, isBlank x = true) :
    e.span.start = c.position ∨ ReadsToEnd ⟨(c.skip 1).position, inner⟩ e := by
  have hhead : c.rest.head? = some '(' := by
    rw [hopen]
    rfl
  have hpast : c.pastBlanks = c := Cursor.pastBlanks_of_cons hopen (by decide)
  have ⟨_, _, hderives, _⟩ := h
  obtain ⟨es₀, hes₀, -⟩ := hderives.exists_expressions
  have hencloses := hes₀.encloses ⟨trivial, by rwa [hpast]⟩
  rw [hpast] at hencloses
  obtain ⟨depth, es, k, hes, hne, hpass, hk⟩ := hencloses.exists_inner hopen hinner
  have hclose : k.rest.head? = some ')' := by
    rw [hk]
    rfl
  have hend : (k.skip 1).AtEnd := by
    rw [Cursor.AtEnd, Cursor.pastBlanks_rest, Cursor.skip_rest, hk]
    exact List.dropWhile_eq_nil_iff.2 hblanks
  -- The whole is a primary expression, and only one tree is read.
  have hgroup := Derives.grouped (c := c) (by rwa [hpast]) (by rwa [hpast]) hclose hne
  rw [hpast] at hgroup
  have hop := unaryOperator?_opening hhead (by decide)
  rcases es with _ | ⟨first, _ | ⟨second, rest⟩⟩
  · exact absurd rfl hne
  · obtain rfl := h.unique (readsToEnd_primary (.primary (.group hhead hgroup)) hend hop).readsToEnd
    obtain ⟨d', hd, hd'⟩ := Cursor.exists_end (c.skip 1).position inner
    obtain ⟨hcut, -⟩ := hes.elsewhere hpass hd rfl (by rw [hd']; exact follows_nil k.rest)
    exact Or.inr (readsToEnd_expressions hcut rfl (.of_rest hd')).readsToEnd
  · obtain rfl := h.unique (readsToEnd_primary (.primary (.group hhead hgroup)) hend hop).readsToEnd
    exact Or.inl rfl

/-- Blanks that are known to stand before a text are skipped, and those that it begins with. -/
theorem Cursor.pastBlanks_eq {blanks rest : List Char} (hrest : c.rest = blanks ++ rest)
    (hblanks : ∀ x ∈ blanks, isBlank x = true) :
    c.pastBlanks = ⟨c.position + (utf8Size blanks + utf8Size (rest.takeWhile isBlank)),
      rest.dropWhile isBlank⟩ := by
  show Cursor.mk (c.position + utf8Size (c.rest.takeWhile isBlank)) (c.rest.dropWhile isBlank) = _
  rw [hrest, List.takeWhile_append_of_pos hblanks, List.dropWhile_append_of_pos hblanks,
    utf8Size_append]

/-- Parentheses around a text in which they match are taken off. -/
theorem ReadsToEnd.peeled {before slice after : List Char} (h : ReadsToEnd c e)
    (hrest : c.rest = before ++ (slice ++ after))
    (hstart : c.position + utf8Size before = e.span.start) (hslice : Matched slice)
    (hbefore : IsEdge '(' before) (hafter : IsEdge ')' after) :
    ∃ blanks : List Char, (∀ x ∈ blanks, isBlank x = true) ∧
      ReadsToEnd ⟨e.span.start, slice ++ blanks⟩ e := by
  induction hlength : before.length using Nat.strong_induction_on generalizing c before after with
  | h length ih =>
    have hmatched := h.matched
    rw [hrest] at hmatched
    have hpast := h.pastBlanks
    rcases hmatched.peel hslice hbefore hafter with ⟨hblank, hblank'⟩ |
      ⟨blanks, before', after', blanks', rfl, rfl, hblanks, hblanks', hbefore', hafter', hinner⟩
    · -- The node does not begin before the first character that is no blank.
      have hle : c.pastBlanks.position ≤ e.span.start := by
        have ⟨_, _, hderives, _⟩ := hpast
        obtain ⟨first, c₁, hpass, -, hposition⟩ := hderives.leads e rfl
        rw [← hposition, hpass.position_eq]
        exact Nat.le_add_right _ _
      rw [Cursor.pastBlanks_eq hrest hblank] at hpast hle
      dsimp only at hle
      have hnil : (slice ++ after).takeWhile isBlank = [] := by
        have hsize := length_le_utf8Size ((slice ++ after).takeWhile isBlank)
        exact List.eq_nil_of_length_eq_zero (by omega)
      have hdrop : (slice ++ after).dropWhile isBlank = slice ++ after := by
        have hsplit := List.takeWhile_append_dropWhile (p := isBlank) (l := slice ++ after)
        rwa [hnil, List.nil_append] at hsplit
      rw [hdrop, hnil, utf8Size_nil, Nat.add_zero, hstart] at hpast
      exact ⟨after, hblank', hpast⟩
    · have hrest' : c.rest =
          blanks ++ '(' :: ((before' ++ (slice ++ after')) ++ ')' :: blanks') := by
        rw [hrest]
        simp only [List.append_assoc, List.cons_append]
      have hopen : c.pastBlanks = ⟨c.position + utf8Size blanks,
          '(' :: ((before' ++ (slice ++ after')) ++ ')' :: blanks')⟩ :=
        Cursor.pastBlanks_eq hrest' hblanks
      rw [hopen] at hpast
      rw [utf8Size_append, utf8Size_cons] at hstart
      have hone := Char.utf8Size_pos '('
      rcases hpast.within rfl hinner hblanks' with hhead | hwithin
      · dsimp only at hhead
        omega
      · refine ih before'.length ?_ hwithin rfl ?_ hbefore' hafter' rfl
        · rw [← hlength, List.length_append, List.length_cons]
          omega
        · show c.position + utf8Size blanks + utf8Size ['('] + utf8Size before' = e.span.start
          rw [utf8Size_cons, utf8Size_nil]
          omega

/-! ## The text by itself -/

/-- Offsets that stay the same up to the end of a tree leave the tree. -/
theorem relocated_of_le {text : List Char} {f g : Nat → Nat}
    (hspans : ∀ n ∈ e.nodes, n.WellSpanned text) (h : ∀ p ≤ e.span.stop, f p = g p) :
    e.relocated f = e.relocated g := by
  refine Expr.relocated_congr fun n hn => ?_
  have hstop := (Expr.span_within hspans hn).2
  have hstart := (hspans n hn).start_lt_stop
  exact congrArg₂ Span.mk (h _ (by omega)) (h _ hstop)

/-- What is read from its own text, with nothing but blanks behind it, is read from the text
alone. -/
theorem ReadsToEnd.alone {slice blanks text : List Char}
    (h : ReadsToEnd ⟨e.span.start, slice ++ blanks⟩ e) (hblanks : ∀ x ∈ blanks, isBlank x = true)
    (hstop : e.span.start + utf8Size slice = e.span.stop)
    (hspans : ∀ n ∈ e.nodes, n.WellSpanned text) :
    ∃ e', Reads (String.ofList slice) e' ∧ e = e'.movedBy e.span.start := by
  obtain ⟨depth, c', hderives, hend⟩ := h
  let x := Likeness.trimmed e.span.start e.span.stop
  have hrest : (Cursor.ofString (String.ofList slice)).rest = slice := String.toList_ofList
  have hstates : x.States (Cursor.mk e.span.start (slice ++ blanks))
      (Cursor.ofString (String.ofList slice)) := by
    refine ⟨⟨rfl, ?_, blanks, hblanks, ?_⟩, trivial⟩
    · show e.span.start + 0 + utf8Size (String.ofList slice).toList = e.span.stop
      rw [String.toList_ofList, Nat.add_zero, hstop]
    · show slice ++ blanks = (String.ofList slice).toList ++ blanks
      rw [String.toList_ofList]
  obtain ⟨e?', d', hderives', hsame?, -, -, blanks', hblanks', hc'⟩ :=
    hderives.alike hstates (.sequence false)
  obtain ⟨e', rfl, hsame⟩ := View.Same.exists_some hsame?
  have hend' : d'.AtEnd := by
    have hall := List.dropWhile_eq_nil_iff.1 (show c'.rest.dropWhile isBlank = [] from hend)
    refine List.dropWhile_eq_nil_iff.2 fun y hy => hall y ?_
    rw [hc']
    exact List.mem_append_left _ hy
  refine ⟨e', ⟨depth, d', hderives', hend'⟩, ?_⟩
  have hlocated := hderives'.located (Cursor.isIn_ofString _)
  have hspans' := hlocated.nodes e' (List.mem_singleton_self e')
  have hsize := (hspans' e' e'.mem_nodes_self).stop_le
  rw [String.toList_ofList] at hsize
  -- Neither tree goes behind the end.
  calc e = e.relocated id := e.relocated_id.symm
    _ = e.relocated x.left := relocated_of_le hspans fun p hp => (Nat.min_eq_left hp).symm
    _ = e'.relocated x.right := hsame
    _ = e'.movedBy e.span.start := relocated_of_le hspans' fun p hp =>
      Nat.min_eq_left (by omega)

/-- The tree is read from a piece of the text, to the end of the piece. -/
def Stands (text : List Char) (e : Expr) : Prop :=
  ∃ before piece after, text = before ++ (piece ++ after) ∧ ReadsToEnd ⟨utf8Size before, piece⟩ e

/-- A node that is read from a piece of the text is read from its own text alone, if the parentheses
of that match. -/
theorem Stands.alone {text : List Char} (h : Stands text e)
    (hspans : ∀ n ∈ e.nodes, n.WellSpanned text) :
    ∃ before slice after, text = before ++ (slice ++ after) ∧ utf8Size before = e.span.start ∧
      e.span.start + utf8Size slice = e.span.stop ∧
      (Matched slice → ∃ e', Reads (String.ofList slice) e' ∧ e = e'.movedBy e.span.start) := by
  obtain ⟨first, piece, last, rfl, hread⟩ := h
  have ⟨_, _, hderives, hend⟩ := hread
  obtain ⟨before, slice, after, hrest, hbefore, hafter, hstart, hstop⟩ :=
    hderives.exists_edges hend (hspans e e.mem_nodes_self).start_lt_stop
  dsimp only at hrest hstart
  refine ⟨first ++ before, slice, after ++ last, ?_, ?_, hstop, fun hslice => ?_⟩
  · rw [hrest]
    simp only [List.append_assoc]
  · rw [utf8Size_append, hstart]
  · obtain ⟨blanks, hblanks, hpeeled⟩ := hread.peeled hrest hstart hslice hbefore hafter
    exact hpeeled.alone hblanks hstop hspans

end Grammar

end Estree
