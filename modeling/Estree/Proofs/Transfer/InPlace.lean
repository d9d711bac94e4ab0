import Estree.Proofs.Grammar.Sequences
import Estree.Proofs.Grammar.Trimmed
import Estree.Proofs.Source.Lists
import Estree.Proofs.Transfer.Ends

/-!
# Accepted texts within other texts

A text that is an expression on its own is read as the same tree, with its offsets counted from
there, wherever it stands in brackets or between commas (`Accepted.reads_expressions`,
`Argument.reads_expression`). The reading is first moved to another offset, with nothing behind it
(`Likeness.moved`), and then what closes it may follow (`Derives.elsewhere`).

> `Accepted`: a text with the tree that it is read as, within some limits. As a structure it carries
> its own proof of being accepted, so that lists and runs of such texts need no side conditions.
> `Argument`: an accepted text that may stand between commas, as it is no sequence without
> parentheses.

The levels that the text was accepted with do not matter where it stands, as every text is read with
four levels for each of its bytes if it is read at all (`Derives.withLevels`).
-/

namespace Estree

open Text

/-- The second reading stands in the same text, so many bytes further on. -/
def Likeness.moved (offset : Nat) : Likeness Cursor Cursor where
  left := (offset + ·)
  right := id
  cursors c d := d.position = offset + c.position ∧ d.rest = c.rest
  beside _ _ := True
  beside_moveTo _ _ h := h
  position_eq h := h.1.symm
  add_eq n h := by
    simp only [id_eq] at h ⊢
    omega
  solid_eq h := congrArg solid h.2.symm
  skip := by
    rintro c d n ⟨hposition, hrest⟩ -
    refine ⟨?_, ?_⟩
    · show d.position + _ = offset + (c.position + _)
      rw [hposition, hrest, Nat.add_assoc]
    · rw [Cursor.skip_rest, Cursor.skip_rest, hrest]
  skipBlanks := by
    rintro c d lineEnds ⟨hposition, hrest⟩
    refine ⟨?_, ?_⟩
    · show d.position + _ = offset + (c.position + _)
      rw [hposition, hrest, Nat.add_assoc]
    · show d.rest.dropWhile _ = c.rest.dropWhile _
      rw [hrest]

/-- A text that is read as an expression, within some limits. -/
structure Accepted where
  source : String
  tree : Expr
  isRead : ∃ limits, Expr.parseWithin limits source = .ok tree

/-- An accepted text that may stand between commas: it is no sequence without parentheses. -/
structure Argument extends Accepted where
  isSingle : tree.isBareSequence = false

namespace Grammar

variable {used depth : Nat} {p : Production} {c c' d d' : Cursor} {v : p.Yield} {source : String}

/-- What is read is read with more levels, and with as many as a text of this length can need. -/
theorem Derives.withLevels (h : Derives used p c v c')
    (hdepth : used ≤ depth ∨ 4 * c.rest.length + levels p ≤ depth) : Derives depth p c v c' :=
  unfold_isSound _ (h.unfold_eq_ok ⟨Nat.lt_succ_self _, hdepth⟩)

/-- Blanks before the end, or before a character that is none, are passed up to there. -/
theorem pastBlanks_of_passes {blanks : List Char} (h : c.Passes blanks c')
    (hblanks : ∀ x ∈ blanks, isBlank x = true) (hhead : ∀ x ∈ c'.rest.head?, isBlank x = false) :
    c.pastBlanks = c' := by
  have htake : c.rest.takeWhile isBlank = blanks := by
    rw [h.rest_eq]
    exact takeWhile_append hblanks hhead
  rw [h.eq_skip, ← htake]
  exact c.skipWhile_eq_skip isBlank

/-- What is read of a text up to blanks at its end is read at another offset, with a closer or
nothing behind the text. -/
theorem Derives.inPlace {values : p.Yield → p.Yield → Prop}
    (h : Derives used p (.ofString source) v c') (hend : ∀ y ∈ c'.rest, isBlank y = true)
    (hlike : Production.Like ⟨(d.position + ·), none⟩ ⟨id, none⟩ p p values)
    (hd : d.Passes source.toList d') (hcloses : ∀ x ∈ d'.rest.head?, x ∈ closers p.takesComma)
    (hdepth : 4 * d.rest.length + 4 ≤ depth) :
    ∃ w d₁, Derives depth p d w d₁ ∧ values v w ∧ d₁.pastBlanks = d' := by
  -- First the text at its offset, still with nothing behind it.
  obtain ⟨w, e, hw, hvalues, -, hrest⟩ := h.alike (x := .moved d.position)
    (d := ⟨d.position, source.toList⟩) ⟨⟨rfl, rfl⟩, trivial⟩ hlike
  obtain ⟨piece, hpasses⟩ := hw.reaches.exists_passes
  have hsource : source.toList = piece ++ c'.rest := hrest ▸ hpasses.rest_eq
  obtain ⟨hpiece, hblanks⟩ := (hd.of_eq hsource).split
  have hfollows : Follows p.takesComma (c'.rest ++ []) (c'.rest ++ d'.rest) :=
    (follows_of_closes [] hcloses).blanks hend
  rw [List.append_nil, ← hblanks.rest_eq, ← hrest] at hfollows
  have hmoved := (hw.elsewhere hpasses hpiece rfl hfollows).1
  have hlevels := levels_le p
  refine ⟨w, _, hmoved.withLevels (Or.inr (by omega)), hvalues, ?_⟩
  exact pastBlanks_of_passes hblanks hend fun x hx => isBlank_of_mem_closers (hcloses x hx)

end Grammar

open Grammar

variable {depth : Nat} {d d' : Cursor}

/-- An accepted text is read up to its end as expressions that are joined to its tree. -/
theorem Accepted.exists_expressions (accepted : Accepted) :
    ∃ used es c', Derives used (.expressions true) (.ofString accepted.source) es c' ∧
      c'.rest = [] ∧ sequenceNode? none es = some accepted.tree := by
  obtain ⟨limits, hread⟩ := accepted.isRead
  obtain ⟨c', hderives, hend⟩ := Expr.readsWithin_of_parseWithin_eq_ok hread
  obtain ⟨es, hes, hnode⟩ := hderives.exists_expressions
  have hpast : c'.pastBlanks = c' := hes.endsPast
  exact ⟨_, es, c', hes, hpast ▸ hend, hnode.symm⟩

/-- What looks like a tree that has been moved is that tree. -/
theorem eq_movedBy {offset : Nat} {e? e?' : Option Expr} {e : Expr} (he : e? = some e)
    (h : View.Same ⟨(offset + ·), none⟩ ⟨id, none⟩ e? e?') : e?' = some (e.movedBy offset) := by
  rw [he] at h
  obtain ⟨e', he', hsame⟩ := h.exists_some
  have htree : e.relocated (offset + ·) = e'.relocated id := hsame
  rw [he', Expr.movedBy, htree, Expr.relocated_id]

/-- Where a bracket closes behind it, an accepted text is read as its expressions, moved there. -/
theorem Accepted.reads_expressions (accepted : Accepted) (hd : d.Passes accepted.source.toList d')
    (hcloses : ∀ x ∈ d'.rest.head?, x ∈ closers true) (hdepth : 4 * d.rest.length + 4 ≤ depth) :
    ∃ es, Derives depth (.expressions true) d es d' ∧
      sequenceNode? none es = some (accepted.tree.movedBy d.position) := by
  obtain ⟨used, es, c', hes, hend, hnode⟩ := accepted.exists_expressions
  obtain ⟨es', d₁, hes', hsame, hd₁⟩ := hes.inPlace (by rw [hend]; exact nofun)
    (.expressions true) hd hcloses hdepth
  have hpast : d₁.pastBlanks = d₁ := hes'.endsPast
  obtain rfl : d₁ = d' := hpast.symm.trans hd₁
  exact ⟨es', hes', eq_movedBy hnode
    (hsame.sequenceNode? (Likeness.moved d.position).comparable rfl)⟩

/-- In brackets the text is read as one expression or several. -/
theorem Accepted.reads_sequence (accepted : Accepted) (hd : d.Passes accepted.source.toList d')
    (hcloses : ∀ x ∈ d'.rest.head?, x ∈ closers true) (hdepth : 4 * d.rest.length + 4 ≤ depth) :
    Derives depth (.sequence false) d (some (accepted.tree.movedBy d.position)) d' := by
  obtain ⟨es, hes, hnode⟩ := accepted.reads_expressions hd hcloses hdepth
  rw [← hnode]
  exact .ungrouped ((derives_pastBlanks_iff (p := .expressions true) trivial).2 hes)

/-- Between commas, and before the end of a list, such a text is read as its tree. -/
theorem Argument.reads_expression (argument : Argument) (hd : d.Passes argument.source.toList d')
    (hcloses : ∀ x ∈ d'.rest.head?, x ∈ closers false) (hdepth : 4 * d.rest.length + 4 ≤ depth) :
    ∃ d₁, Derives depth .expression d (some (argument.tree.movedBy d.position)) d₁ ∧
      d₁.pastBlanks = d' := by
  obtain ⟨used, es, c', hes, hend, hnode⟩ := argument.exists_expressions
  obtain rfl := eq_singleton_of_sequenceNode? hnode argument.isSingle
  -- The text is one expression and the blanks behind it.
  obtain ⟨c₁, hexpression, hblanks⟩ : ∃ c₁,
      Derives used .expression (.ofString argument.source) (some argument.tree) c₁ ∧
        ∀ y ∈ c₁.rest, isBlank y = true := by
    generalize hes' : [argument.tree] = es' at hes
    cases hes with
    | @lastExpression _ _ c₁ e? _ he _ _ =>
      rw [Option.toList_eq_singleton_iff.1 hes'.symm] at he
      exact ⟨c₁, he, List.dropWhile_eq_nil_iff.1 hend⟩
    | moreExpressions _ _ hothers =>
      cases hes'
      exact absurd rfl hothers.expressions_ne_nil
  obtain ⟨e?, d₁, he, hsame, hd₁⟩ := hexpression.inPlace hblanks .expression hd hcloses hdepth
  exact ⟨d₁, eq_movedBy rfl hsame ▸ he, hd₁⟩

end Estree
