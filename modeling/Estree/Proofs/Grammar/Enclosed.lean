import Estree.Proofs.Grammar.Edges
import Estree.Proofs.Grammar.Spans
import Estree.Proofs.Grammar.Stops
import Estree.Proofs.Text.Enclosed

/-!
# Nodes that are enclosed

A group leaves no node, so what is known of a tree does not tell where the source has parentheses.
At two places it can be told from the text (`Span.isEnclosed`), and here it is shown that what the
text says is what has been read:

> `Derives.callee_of_isEnclosed`: if the callee of a `new` is enclosed, it has been read as a group
> with no link behind it.
> `Leaf.not_isEnclosed_number`: digits that a link follows are not enclosed, unless they have been
> read as a group.

For the callee the argument goes from the word `new`. All parentheses between that word and the
callee belong to its first part, which passes text in which they match. If that part does not begin
with a parenthesis, there are none; and if a link follows it, all of them are closed before the
link, and so within the piece of the callee. Either way none is left that could be around it
(`not_isEnclosed_of_passes`).
-/

namespace Estree

open Text

namespace Cursor

variable {source : String} {c c₁ c₂ : Cursor} {lead piece : List Char} {span : Span}

/-- Before the cursor stands a character of the text that is no blank and no parenthesis that
opens. -/
def IsBehindSolid (text : List Char) (c : Cursor) : Prop :=
  ∃ first x, text = first ++ x :: c.rest ∧ utf8Size (first ++ [x]) = c.position ∧
    x ≠ '(' ∧ isBlank x = false

/-- Such a cursor is a place in the text. -/
theorem IsBehindSolid.isIn {text : List Char} (h : c.IsBehindSolid text) : c.IsIn text := by
  obtain ⟨first, x, htext, hsize, -, -⟩ := h
  refine ⟨first ++ [x], ?_, hsize⟩
  rw [htext, List.append_assoc]
  rfl

/-- Behind `new` the cursor stands behind a letter. -/
theorem isBehindSolid_new {text : List Char} (hc : c.IsIn text)
    (hword : leadingWord c.rest = "new".toList) :
    (c.skip "new".toList.length).IsBehindSolid text := by
  obtain ⟨before, htext, hsize⟩ := hc
  have hpass : c.Passes (leadingWord c.rest) (c.skip (leadingWord c.rest).length) :=
    c.passes_leadingWord
  rw [hword] at hpass
  refine ⟨before ++ ['n', 'e'], 'w', ?_, ?_, by decide, by decide⟩
  · rw [htext, hpass.rest_eq]
    simp
  · rw [hpass.position_eq, ← hsize, List.append_assoc, utf8Size_append]
    rfl

/-- A piece of the text is not enclosed if the parentheses between a solid character and the piece
match with some text that the piece begins with. -/
theorem not_isEnclosed_of_passes (hc : c.IsBehindSolid source.toList) (hlead : c.Passes lead c₁)
    (hedge : IsEdge '(' lead) (hpiece : c₁.Passes piece c₂) (hmatched : Matched (lead ++ piece))
    (hstart : c₁.position = span.start) (hstop : c₂.position ≤ span.stop)
    (hboundary : IsBoundary source.toList span.stop) :
    span.isEnclosed source = false := by
  obtain ⟨first, x, hsource, hsize, hx, hblank⟩ := hc
  have hbefore : utf8Size (first ++ x :: lead) = span.start := by
    have hsplit : first ++ x :: lead = (first ++ [x]) ++ lead := by simp
    rw [hsplit, utf8Size_append, hsize, ← hstart, hlead.position_eq]
  have htext : source.toList = (first ++ x :: lead) ++ (piece ++ c₂.rest) := by
    rw [hsource, hlead.rest_eq, hpiece.rest_eq, List.append_assoc]
    rfl
  have hle : utf8Size ((first ++ x :: lead) ++ piece) ≤ span.stop := by
    rw [utf8Size_append, hbefore, ← hstart, ← hpiece.position_eq]
    exact hstop
  rw [htext, ← List.append_assoc] at hboundary
  obtain ⟨rest, after, hrest, hend⟩ := hboundary.exists_split hle
  have hsplit : source.toList = (first ++ x :: lead) ++ ((piece ++ rest) ++ after) := by
    rw [htext, hrest, List.append_assoc piece]
  have hspan : span.start + utf8Size (piece ++ rest) = span.stop := by
    rw [← hend, utf8Size_append, utf8Size_append _ piece, hbefore, Nat.add_assoc]
  rw [Span.isEnclosed_eq hsplit hbefore hspan]
  exact decide_eq_false (not_isEnclosed_of_matched hx hblank hedge hmatched)

/-- The shorter one of two pieces that are passed from one place begins the longer one. -/
theorem Passes.exists_append {edge : List Char} {k : Cursor} (hedge : c.Passes edge k)
    (hpiece : c.Passes piece c₁) (hlt : k.position < c₁.position) :
    ∃ rest, piece = edge ++ rest ∧ k.Passes rest c₁ := by
  have hsplit : edge ++ k.rest = piece ++ c₁.rest := by
    rw [← hedge.rest_eq, hpiece.rest_eq]
  rcases List.append_eq_append_iff.1 hsplit with ⟨rest, rfl, -⟩ | ⟨rest, hrest, -⟩
  · refine ⟨rest, rfl, ?_⟩
    rw [hedge.eq_skip]
    exact hpiece.split.2
  · have hsize := congrArg utf8Size hrest
    rw [utf8Size_append] at hsize
    rw [hpiece.position_eq, hedge.position_eq] at hlt
    omega

/-- Behind blanks there is no edge of parentheses unless one of them opens there. -/
theorem edge_eq_nil {edge : List Char} {k : Cursor} (hpasses : c.pastBlanks.Passes edge k)
    (hedge : IsEdge '(' edge) (hopen : c.pastBlanks.rest.head? ≠ some '(') : edge = [] := by
  cases edge with
  | nil => rfl
  | cons x rest =>
    have hhead : c.pastBlanks.rest.head? = some x := by
      rw [hpasses.rest_eq]
      rfl
    rcases hedge x (List.mem_cons_self ..) with rfl | hblank
    · exact absurd hhead hopen
    · have hsolid : isBlank x = false :=
        not_of_mem_head?_dropWhile (show x ∈ (c.rest.dropWhile isBlank).head? from hhead)
      rw [hsolid] at hblank
      cases hblank

/-- Where a parenthesis closes, no link goes on. -/
theorem hasNoLink_of_close (h : c.pastBlanks.rest.head? = some ')') : c.HasNoLink where
  access := Token.access?_eq_none fun x hx => by
    obtain rfl := Option.some.inj (h.symm.trans hx)
    decide
  paren := by
    rw [h]
    decide

end Cursor

/-- Digits that a link follows are not enclosed. -/
theorem Leaf.not_isEnclosed_number {source : String} {c c' : Cursor} {e : Expr}
    (hc : c.IsIn source.toList) (hstart : Pattern.numberStart.isAtStart c.rest = true)
    (h : number c = .ok e c') (hlink : ¬c'.HasNoLink) : e.span.isEnclosed source = false := by
  obtain ⟨piece, _, -, -, hpass, rfl⟩ := number_eq_ok hstart h
  obtain ⟨before, hsource, hsize⟩ := hc
  rw [hpass.rest_eq] at hsource
  rw [Span.isEnclosed_eq hsource hsize hpass.position_eq.symm]
  refine decide_eq_false (not_isEnclosed_of_follow fun hclose => ?_)
  exact hlink (Cursor.hasNoLink_of_close hclose)

namespace Grammar

variable {depth : Nat} {p : Production} {c c₁ c' : Cursor} {v : p.Yield}

/-! ## Callees -/

/-- The callee begins where its first part does, and is either that part alone or goes on behind the
place where the links begin. -/
def GoesOn : (p : Production) → Cursor → p.Yield → Prop
  | .calleeLinks before, c, callee =>
    callee.links.node.span.start = before.node.span.start ∧
      (callee.links.node = before.node ∨ c.position ≤ callee.links.node.span.stop)
  | _, _, _ => True

/-- Links leave the start of a callee where it is, and only move its end on. -/
theorem Derives.goesOn (h : Derives depth p c v c') : GoesOn p c v := by
  induction h with
  | noCalleeLink | calleeArguments => exact ⟨rfl, Or.inl rfl⟩
  | @calleeAccess _ c c₁ c' before between access callee _ hmember _ _ ih =>
    obtain ⟨hstart, hnode⟩ := ih
    have hstart' : between.node.span.start = before.node.span.start := hmember.leads
    obtain ⟨_, k, hk, -, -, hposition⟩ :
        (c.pastBlanks.skip access.text.length).Trails between.node.span.stop c₁ := hmember.trailsOff
    have hle := c.position_pastBlanks_skip_le access.text.length
    refine ⟨hstart.trans hstart', Or.inr ?_⟩
    rcases hnode with hnode | hnode
    · rw [hnode, ← hposition]
      exact Nat.le_trans hle hk.position_le
    · exact Nat.le_trans hle (Nat.le_trans hmember.reaches.position_le hnode)
  | _ => trivial

/-- What the text has between parentheses as the callee of a `new` has been read as a group, with no
link behind it. -/
theorem Derives.callee_of_isEnclosed {source : String} {primary : Expr} {callee : Callee}
    (hprimary : Derives depth .primary c.pastBlanks (some primary) c₁)
    (hcallee : Derives depth (.calleeLinks ⟨primary, false⟩) c₁ callee c')
    (hc : c.IsBehindSolid source.toList)
    (henclosed : callee.links.node.span.isEnclosed source = true) :
    callee.links.node = primary ∧ c.pastBlanks.rest.head? = some '(' := by
  obtain ⟨edge, k, hedge, hisEdge, hposition⟩ : c.pastBlanks.LeadsTo primary.span.start :=
    hprimary.leads primary rfl
  obtain ⟨piece, hpiece, hmatched⟩ : c.pastBlanks.Matches c₁ := hprimary.parenthesized
  have hfirst : Expr.AreAt source.toList c.pastBlanks.position c₁.position [primary] :=
    hprimary.located hc.isIn.pastBlanks
  obtain ⟨hnodes, -⟩ := hcallee.located (hprimary.isIn hc.isIn.pastBlanks) _ hfirst
  have hspan := hnodes.root
  obtain ⟨hstart, hnode⟩ := hcallee.goesOn
  have hlead : c.Passes (c.blanks ++ edge) k := c.passes_blanks.trans hedge
  have hisLead : IsEdge '(' (c.blanks ++ edge) :=
    (isEdge_of_blanks c.isBlank_of_mem_blanks).append hisEdge
  have hk : k.position = callee.links.node.span.start := hposition.trans hstart.symm
  rcases hnode with hnode | hbehind
  · refine ⟨hnode, Decidable.byContradiction fun hopen => ?_⟩
    -- Without a parenthesis the callee stands right behind the blanks.
    obtain rfl := Cursor.edge_eq_nil hedge hisEdge hopen
    have hblanks : Matched ((c.blanks ++ []) ++ []) := by
      rw [List.append_nil, List.append_nil]
      exact matched_of_blanks c.isBlank_of_mem_blanks
    have hle : k.position ≤ callee.links.node.span.stop := by
      rw [hk]
      exact Nat.le_of_lt hspan.start_lt_stop
    rw [Cursor.not_isEnclosed_of_passes hc hlead hisLead (.refl k) hblanks hk hle
      hspan.stop_isBoundary] at henclosed
    cases henclosed
  · -- The first part goes on behind the edge, and all its parentheses are closed where it ends.
    have hlt : k.position < c₁.position := by
      rw [hposition]
      obtain ⟨-, -, hstop⟩ := Expr.areAt_singleton_iff.1 hfirst
      exact Nat.lt_of_lt_of_le hfirst.root.start_lt_stop hstop
    obtain ⟨rest, rfl, hrest⟩ := hedge.exists_append hpiece hlt
    have hall : Matched ((c.blanks ++ edge) ++ rest) := by
      rw [List.append_assoc]
      exact (matched_of_blanks c.isBlank_of_mem_blanks).append hmatched
    rw [Cursor.not_isEnclosed_of_passes hc hlead hisLead hrest hall hk hbehind
      hspan.stop_isBoundary] at henclosed
    cases henclosed

end Grammar

end Estree
