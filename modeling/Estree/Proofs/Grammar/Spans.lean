import Estree.Proofs.Expr.Spans
import Estree.Proofs.Grammar.Reader

/-!
# Spans of what is read

`parseWithin_wellSpanned`: every node of a tree that is read is well spanned. Spans come from
cursors, from the first and the last node below, or from an offset that was kept; `Located` says for
each production where its yield stands between the cursor that it begins at and the one that it ends
at.

> `Cursor.IsIn text c`: the cursor is a place in the text. What it reaches is one too, so its
> offsets are between characters.
> `AreAt text lo hi es`: the trees stand one after the other between two offsets, and each of them
> is well spanned. Trees that stand there may be moved into wider bounds, so what is read between
> two cursors stands between any two around them.

A node is well spanned if the nodes below it stand one after the other between its ends, and the
lemmas for the nodes that productions put together say just that. In a run the node before the links
is given, and the offset at which it begins is behind the cursor; so `Located` takes the bounds of
what a run begins with, and gives those of what it has grown to.
-/

open Estree.Expr

namespace Estree

/-! ## Cursors of a text -/

/-- The cursor is a place in the text. -/
def Cursor.IsIn (text : List Char) (c : Cursor) : Prop :=
  ∃ before, text = before ++ c.rest ∧ Text.utf8Size before = c.position

namespace Cursor

variable {text : List Char} {c c' : Cursor}

/-- A cursor in the text stands between characters. -/
theorem IsIn.isBoundary (h : c.IsIn text) : Text.IsBoundary text c.position := by
  obtain ⟨before, htext, hsize⟩ := h
  exact ⟨before, c.rest, htext, hsize⟩

/-- The cursor at the start is in the text. -/
theorem isIn_ofString (source : String) : (ofString source).IsIn source.toList :=
  ⟨[], rfl, rfl⟩

/-- Further on, the cursor is still in the text. -/
theorem IsIn.of_reaches (h : c.IsIn text) (hreaches : c.Reaches c') : c'.IsIn text := by
  obtain ⟨before, htext, hsize⟩ := h
  obtain ⟨n, rfl⟩ := hreaches
  refine ⟨before ++ c.rest.take n, ?_, ?_⟩
  · rw [List.append_assoc, skip_rest, List.take_append_drop, htext]
  · rw [Text.utf8Size_append, hsize]
    rfl

/-- So it is behind some characters, -/
theorem IsIn.skip (h : c.IsIn text) (n : Nat) : (c.skip n).IsIn text :=
  h.of_reaches (c.reaches_skip n)

/-- and behind blanks. -/
theorem IsIn.pastBlanks (h : c.IsIn text) : c.pastBlanks.IsIn text :=
  h.of_reaches c.reaches_pastBlanks

/-- Skipping moves no cursor back. -/
theorem position_skip_le (c : Cursor) (n : Nat) : c.position ≤ (c.skip n).position :=
  Nat.le_add_right _ _

/-- Further on, the offset is no smaller. -/
theorem Reaches.position_le (h : c.Reaches c') : c.position ≤ c'.position := by
  obtain ⟨n, rfl⟩ := h
  exact c.position_skip_le n

/-- Skipping blanks moves no cursor back. -/
theorem position_skipBlanks_le (c : Cursor) (lineEnds : Bool) :
    c.position ≤ (c.skipBlanks lineEnds).position :=
  Nat.le_add_right _ _

/-- Nor does passing them. -/
theorem position_pastBlanks_le (c : Cursor) : c.position ≤ c.pastBlanks.position :=
  c.position_skipBlanks_le true

/-- Nor do both. -/
theorem position_pastBlanks_skip_le (c : Cursor) (n : Nat) :
    c.position ≤ (c.pastBlanks.skip n).position :=
  Nat.le_trans c.position_pastBlanks_le (c.pastBlanks.position_skip_le n)

/-- A piece that is passed moves the position by its bytes. -/
theorem Passes.position_eq {piece : List Char} (h : c.Passes piece c') :
    c'.position = c.position + Text.utf8Size piece := by
  have htake : c.rest.take piece.length = piece := by
    rw [h.rest_eq]
    exact List.take_left
  rw [h.eq_skip, Cursor.skip, htake]

/-- Behind some text the offset is greater. -/
theorem Passes.position_lt {piece : List Char} (h : c.Passes piece c') (hne : piece ≠ []) :
    c.position < c'.position := by
  have hlength := List.length_pos_iff.2 hne
  have hbytes := Text.length_le_utf8Size piece
  rw [h.position_eq]
  omega

/-- Behind a character the offset is greater. -/
theorem position_lt_skip_char {x : Char} (h : c.rest.head? = some x) :
    c.position < (c.skip 1).position :=
  (passes_skip (rest_eq_cons_skip h)).position_lt (List.cons_ne_nil x [])

/-- A word lies between the cursor and the place behind it. -/
theorem passes_leadingWord (c : Cursor) :
    c.Passes (Text.leadingWord c.rest) (c.skip (Text.leadingWord c.rest).length) := by
  obtain ⟨rest, hrest⟩ := Text.leadingWord_isPrefixOf c.rest
  exact passes_skip hrest.symm

end Cursor

namespace Leaf

variable {text : List Char} {c c' : Cursor} {e : Expr}

/-- A node without nodes below it stands where it has been read. -/
theorem areAt {piece : List Char} (hc : c.IsIn text) (hpass : c.Passes piece c') (hne : piece ≠ [])
    (hspan : e.span = ⟨c.position, c'.position⟩) (hchildren : e.children = []) :
    AreAt text c.position c'.position [e] := by
  have hlt := hpass.position_lt hne
  have hc' : c'.IsIn text := hpass.eq_skip ▸ hc.skip piece.length
  refine areAt_between ?_ hlt hspan hc.isBoundary hc'.isBoundary
  rw [hchildren]
  exact areAt_nil (Nat.le_of_lt hlt)

/-- A word stands where it has been read. -/
theorem areAt_ofWord {word : List Char} (hc : c.IsIn text) (hword : Text.leadingWord c.rest = word)
    (hne : word ≠ []) :
    AreAt text c.position (c.skip word.length).position
      [ofWord ⟨c.position, c.position + Text.utf8Size word⟩ (String.ofList word)] := by
  have hpass : c.Passes word (c.skip word.length) := hword ▸ c.passes_leadingWord
  refine areAt hc hpass hne ?_ ?_
  · rw [hpass.position_eq]
    unfold ofWord
    split <;> rfl
  · unfold ofWord
    split <;> rfl

/-- A number stands where it has been read. -/
theorem areAt_number (hc : c.IsIn text) (hstart : Pattern.numberStart.isAtStart c.rest = true)
    (h : number c = .ok e c') : AreAt text c.position c'.position [e] := by
  obtain ⟨piece, _, hnumeral, -, hpass, rfl⟩ := number_eq_ok hstart h
  exact areAt hc hpass hnumeral.ne_nil rfl rfl

/-- A name stands where it has been read. -/
theorem areAt_propertyName (hc : c.IsIn text) (h : propertyName c = .ok e c') :
    AreAt text c.position c'.position [e] := by
  obtain ⟨hne, rfl, rfl⟩ := propertyName_eq_ok.1 h
  have hpass := c.passes_leadingWord
  refine areAt hc hpass hne ?_ rfl
  rw [hpass.position_eq]
  rfl

end Leaf

namespace Grammar

/-! ## Productions -/

/-- No production leaves the text. -/
theorem Derives.isIn {depth : Nat} {p : Production} {c c' : Cursor} {v : p.Yield}
    (h : Derives depth p c v c') {text : List Char} (hc : c.IsIn text) : c'.IsIn text :=
  hc.of_reaches h.reaches

/-- Where the yield of a production stands. A run grows behind what it begins with, and what an
offset was kept for begins there. -/
def Located (text : List Char) : (p : Production) → Cursor → p.Yield → Cursor → Prop
  | .sequence _, c, e?, c' | .expression, c, e?, c' | .conditional, c, e?, c' | .unary, c, e?, c'
  | .unaryForm, c, e?, c' | .token, c, e?, c' | .primary, c, e?, c' | .primaryForm, c, e?, c' =>
    AreAt text c.position c'.position e?.toList
  | .expressions _, c, es, c' | .arguments, c, es, c' | .argumentList, c, es, c' =>
    AreAt text c.position c'.position es
  | .elements, c, elements, c' => AreAt text c.position c'.position (elements.filterMap id)
  | .operands _, c, x?, c' | .climb _, c, x?, c' =>
    AreAt text c.position c'.position (x?.map (·.expr)).toList
  | .infixes _ left _, c, climbed, c' => ∀ lo, AreAt text lo c.position [left.expr] →
    AreAt text lo c'.position [climbed.expr]
  | .links before, c, after, c' | .member before _, c, after, c' | .accesses before _, c, after, c'
  | .call before _, c, after, c' => ∀ lo, AreAt text lo c.position [before.node] →
    AreAt text lo c'.position [after.node]
  | .construct start, c, e, c' | .updated _ start, c, e, c' =>
    Text.IsBoundary text start → start ≤ c.position → AreAt text start c'.position [e]
  | .array start, c, e, c' =>
    Text.IsBoundary text start → start < c.position → AreAt text start c'.position [e]
  | .calleeLinks before, c, callee, c' => ∀ lo, AreAt text lo c.position [before.node] →
    AreAt text lo c'.position (callee.links.node :: callee.arguments) ∧
      (callee.stop? = some c'.position ∨ callee.stop? = none ∧ callee.arguments = [])

variable {text : List Char} {lo hi : Nat} {es : List Expr} {before : Links}

/-- Expressions stand in the node around them. -/
theorem areAt_sequenceNode? (h : AreAt text lo hi es) :
    AreAt text lo hi (sequenceNode? none es).toList := by
  rcases es with _ | ⟨first, _ | ⟨second, rest⟩⟩
  · exact h
  · exact h
  · exact areAt_across h rfl rfl

/-- A sequence in parentheses reaches over them. -/
theorem areAt_sequenceNode?_grouped (h : AreAt text lo hi es) (hlo : Text.IsBoundary text lo)
    (hhi : Text.IsBoundary text hi) :
    AreAt text lo hi (sequenceNode? (some ⟨lo, hi⟩) es).toList := by
  rcases es with _ | ⟨first, _ | ⟨second, rest⟩⟩
  · exact h
  · exact h
  · exact areAt_between h h.lt rfl hlo hhi

/-- Operands stand in the node that joins them. -/
theorem areAt_join {operator : InfixOperator} {left right : Expr}
    (h : AreAt text lo hi [left, right]) : AreAt text lo hi [operator.join left right] := by
  cases operator <;> exact areAt_across h rfl rfl

/-- A run stands in the chain around it. -/
theorem areAt_finish {run : Links} (h : AreAt text lo hi [run.node]) :
    AreAt text lo hi [run.finish] := by
  unfold Links.finish
  split
  next => exact areAt_across h rfl rfl
  next => exact h

/-- An element that is there is the only one. -/
theorem filterMap_id_toList (e? : Option Expr) : (e?.toList.map some).filterMap id = e?.toList := by
  cases e? <;> rfl

/-- Whatever is read stands where it has been read. -/
theorem Derives.located {depth : Nat} {p : Production} {c c' : Cursor} {v : p.Yield}
    (h : Derives depth p c v c') (hc : c.IsIn text) : Located text p c v c' := by
  induction h with
  | @ungrouped _ c c' es _ ih =>
    have hes : AreAt text c.pastBlanks.position c'.position es := ih hc.pastBlanks
    exact (areAt_sequenceNode? hes).mono c.position_pastBlanks_le (Nat.le_refl _)
  | @grouped _ c c' es _ hderives _ _ ih =>
    have hopen := hc.pastBlanks.skip 1
    have hes : AreAt text (c.pastBlanks.skip 1).position c'.position es := ih hopen
    have hes' := hes.mono (c.pastBlanks.position_skip_le 1) (c'.position_skip_le 1)
    have hclose := (hderives.isIn hopen).skip 1
    -- A sequence reaches over its parentheses, so both of them have to be boundaries.
    exact (areAt_sequenceNode?_grouped hes' hc.pastBlanks.isBoundary hclose.isBoundary).mono
      c.position_pastBlanks_le (Nat.le_refl _)
  | @lastExpression _ c c' e? _ _ _ _ ih =>
    have he : AreAt text c.position c'.position e?.toList := ih hc
    exact he.mono (Nat.le_refl _) c'.position_pastBlanks_le
  | @moreExpressions _ c c₁ c' e es _ hderives _ _ ihe ihes =>
    have he : AreAt text c.position c₁.position [e] := ihe hc
    have hes : AreAt text (c₁.pastBlanks.skip 1).position c'.position es :=
      ihes ((hderives.isIn hc).pastBlanks.skip 1)
    exact he.append (hes.mono (c₁.position_pastBlanks_skip_le 1) (Nat.le_refl _))
  | expression _ ih => exact ih hc
  | @unconditional _ c c' operands? _ _ ih =>
    have hoperands : AreAt text c.position c'.position (operands?.map (·.expr)).toList := ih hc
    exact hoperands.mono (Nat.le_refl _) c'.position_pastBlanks_le
  | @conditional _ c c₁ c₂ c' test consequent alternate hoperands _ hderives _ _ ihtest ihconsequent
      ihalternate =>
    have hc₁ := (hoperands.isIn hc).pastBlanks.skip 1
    have hc₂ := (hderives.isIn hc₁).pastBlanks.skip 1
    have htest : AreAt text c.position c₁.position [test.expr] := ihtest hc
    have hconsequent : AreAt text (c₁.pastBlanks.skip 1).position c₂.position [consequent] :=
      ihconsequent hc₁
    have halternate : AreAt text (c₂.pastBlanks.skip 1).position c'.position [alternate] :=
      ihalternate hc₂
    have hbranches : AreAt text c₁.position c'.position [consequent, alternate] :=
      (hconsequent.mono (c₁.position_pastBlanks_skip_le 1) (Nat.le_refl _)).append
        (halternate.mono (c₂.position_pastBlanks_skip_le 1) (Nat.le_refl _))
    -- The span of a conditional is that from its first part to its last one.
    exact areAt_across (htest.append hbranches) rfl rfl
  | operands _ ih => exact ih hc
  | @noOperand _ c c' _ _ ih =>
    have hnone : AreAt text c.pastBlanks.position c'.position [] := ih hc.pastBlanks
    exact hnone.mono c.position_pastBlanks_le (Nat.le_refl _)
  | @climb _ c c₁ c' _ left climbed hderives _ ihleft ih =>
    have hleft : AreAt text c.pastBlanks.position c₁.position [left] := ihleft hc.pastBlanks
    exact ih (hderives.isIn hc.pastBlanks) c.position
      (hleft.mono c.position_pastBlanks_le (Nat.le_refl _))
  | @noInfix _ c => exact fun _ hleft => hleft.mono (Nat.le_refl _) c.position_pastBlanks_le
  | @joined _ c c₁ c' _ left right climbed _ operator _ _ _ hderives _ _ ihright ih =>
    intro lo hleft
    have hc₁ := hc.pastBlanks.skip operator.text.length
    have hright : AreAt text (c.pastBlanks.skip operator.text.length).position c₁.position
        [right.expr] := ihright hc₁
    have hright' := hright.mono (c.position_pastBlanks_skip_le _) (Nat.le_refl _)
    -- The joined operands begin where the left one does, wherever that is: `lo` is kept.
    exact ih (hderives.isIn hc₁) lo (areAt_join (hleft.append hright'))
  | unary _ ih => exact ih hc
  | @unaryOperator _ c c' operator argument _ _ ih =>
    have hargument : AreAt text (c.pastBlanks.skip operator.text.length).position c'.position
        [argument] := ih (hc.pastBlanks.skip _)
    have hfrom := hargument.mono (c.pastBlanks.position_skip_le _) (Nat.le_refl _)
    exact (areAt_upto hfrom rfl rfl hc.pastBlanks.isBoundary).mono c.position_pastBlanks_le
      (Nat.le_refl _)
  | @noUnaryOperator _ c c' e? _ _ ih =>
    have he : AreAt text c.pastBlanks.position c'.position e?.toList := ih hc.pastBlanks
    exact he.mono c.position_pastBlanks_le (Nat.le_refl _)
  | @noToken _ c c' _ ih =>
    have hnone : AreAt text c.pastBlanks.position c'.position [] := ih hc.pastBlanks
    exact hnone.mono c.position_pastBlanks_le (Nat.le_refl _)
  | @token _ c c₁ c' primary run hderives _ _ ihprimary ihrun =>
    have hprimary : AreAt text c.pastBlanks.position c₁.position [primary] :=
      ihprimary hc.pastBlanks
    have hrun : AreAt text c.position c'.position [run.node] :=
      ihrun (hderives.isIn hc.pastBlanks) c.position
        (hprimary.mono c.position_pastBlanks_le (Nat.le_refl _))
    exact (areAt_finish hrun).mono (Nat.le_refl _) (c'.position_skipBlanks_le false)
  | @trailingUpdate _ c c₁ c' primary run operator hderives hlinks _ _ ihprimary ihrun =>
    have hc₁ := hderives.isIn hc.pastBlanks
    have hprimary : AreAt text c.pastBlanks.position c₁.position [primary] :=
      ihprimary hc.pastBlanks
    have hrun : AreAt text c.position c'.position [run.node] :=
      ihrun hc₁ c.position (hprimary.mono c.position_pastBlanks_le (Nat.le_refl _))
    -- The node ends behind its operator, which is a boundary of its own.
    have hstop := ((hlinks.isIn hc₁).of_reaches (c'.reaches_skipBlanks false)).skip
      operator.text.length
    refine areAt_from ((areAt_finish hrun).mono (Nat.le_refl _) ?_) rfl rfl hstop.isBoundary
    exact Nat.le_trans (c'.position_skipBlanks_le false) (Cursor.position_skip_le _ _)
  | noLink => exact fun _ hbefore => hbefore
  | @linkAccess _ c c₁ c' before between after access _ hderives _ ihbetween ih =>
    intro lo hbefore
    have hc₁ := hc.pastBlanks.skip access.text.length
    exact ih (hderives.isIn hc₁) lo
      (ihbetween hc₁ lo (hbefore.mono (Nat.le_refl _) (c.position_pastBlanks_skip_le _)))
  | @linkCall _ c c₁ c' before between after _ _ hderives _ ihbetween ih =>
    intro lo hbefore
    have hc₁ := hc.pastBlanks.skip 1
    exact ih (hderives.isIn hc₁) lo
      (ihbetween hc₁ lo (hbefore.mono (Nat.le_refl _) (c.position_pastBlanks_skip_le _)))
  | member _ ih => exact ih hc
  | @computedLast _ c c' before access property _ hderives _ _ ih =>
    intro lo hbefore
    have hproperty : AreAt text c.position c'.position [property] := ih hc
    have hstop := (hderives.isIn hc).pastBlanks.skip 1
    exact areAt_from (hbefore.append
      (hproperty.mono (Nat.le_refl _) (c'.position_pastBlanks_skip_le 1))) rfl rfl hstop.isBoundary
  | @computedNext _ c c₁ c' before after access next property _ hderives _ _ _ ihproperty ih =>
    intro lo hbefore
    have hproperty : AreAt text c.position c₁.position [property] := ihproperty hc
    have hstop := (hderives.isIn hc).pastBlanks.skip 1
    have hmember : AreAt text lo (c₁.pastBlanks.skip 1).position
        [(memberLinks before property access (c₁.pastBlanks.skip 1).position).node] :=
      areAt_from (hbefore.append
        (hproperty.mono (Nat.le_refl _) (c₁.position_pastBlanks_skip_le 1))) rfl rfl
        hstop.isBoundary
    exact ih (hstop.pastBlanks.skip _) lo
      (hmember.mono (Nat.le_refl _) (Cursor.position_pastBlanks_skip_le _ _))
  | @namedLast _ c c' before access property _ _ hname _ =>
    intro lo hbefore
    have hproperty := Leaf.areAt_propertyName hc.pastBlanks hname
    exact areAt_across (hbefore.append
      (hproperty.mono c.position_pastBlanks_le (Nat.le_refl _))) rfl rfl
  | @namedNext _ c c₁ c' before after access next property _ _ hname _ _ ih =>
    intro lo hbefore
    have hproperty := Leaf.areAt_propertyName hc.pastBlanks hname
    have hmember : AreAt text lo c₁.position
        [(memberLinks before property access property.span.stop).node] :=
      areAt_across (hbefore.append
        (hproperty.mono c.position_pastBlanks_le (Nat.le_refl _))) rfl rfl
    have hc₁ := hc.pastBlanks.of_reaches (Leaf.reaches_propertyName hname)
    exact ih (hc₁.pastBlanks.skip _) lo
      (hmember.mono (Nat.le_refl _) (Cursor.position_pastBlanks_skip_le _ _))
  | @accessedCall _ c c' before after access _ _ _ ih =>
    exact fun lo hbefore => ih (hc.pastBlanks.skip 1) lo
      (hbefore.mono (Nat.le_refl _) (c.position_pastBlanks_skip_le 1))
  | @callLast _ c c' before optional es hderives _ ih =>
    intro lo hbefore
    have hes : AreAt text c.position c'.position es := ih hc
    exact areAt_from (hbefore.append hes) rfl rfl (hderives.isIn hc).isBoundary
  | @callNext _ c c₁ c' before after optional next es hderives _ _ ihes ih =>
    intro lo hbefore
    have hes : AreAt text c.position c₁.position es := ihes hc
    have hc₁ := hderives.isIn hc
    have hcall : AreAt text lo c₁.position [(callLinks before es optional c₁.position).node] :=
      areAt_from (hbefore.append hes) rfl rfl hc₁.isBoundary
    exact ih (hc₁.pastBlanks.skip _) lo
      (hcall.mono (Nat.le_refl _) (c₁.position_pastBlanks_skip_le _))
  | @arguments _ c c' es _ _ ih =>
    have hes : AreAt text c.position c'.position es := ih hc
    exact hes.mono (Nat.le_refl _) (c'.position_skip_le 1)
  | @lastArgument _ c c' e? _ _ ih =>
    have he : AreAt text c.position c'.position e?.toList := ih hc
    exact he.mono (Nat.le_refl _) c'.position_pastBlanks_le
  | @moreArguments _ c c₁ c' e es hderives _ _ ihe ihes =>
    have he : AreAt text c.position c₁.position [e] := ihe hc
    have hes : AreAt text (c₁.pastBlanks.skip 1).position c'.position es :=
      ihes ((hderives.isIn hc).pastBlanks.skip 1)
    exact he.append (hes.mono (c₁.position_pastBlanks_skip_le 1) (Nat.le_refl _))
  | primary _ ih => exact ih hc
  | group _ _ ih => exact ih hc
  | @leadingUpdate _ c c' operator e _ _ ih =>
    exact ih (hc.skip _) hc.isBoundary (c.position_skip_le _)
  | @new _ c c' e _ _ ih => exact ih (hc.skip _) hc.isBoundary (c.position_skip_le _)
  | word hword hne _ => exact Leaf.areAt_ofWord hc hword hne
  | number hstart hnumber => exact Leaf.areAt_number hc hstart hnumber
  | @arrayLiteral _ c c' e hopen _ ih =>
    exact ih (hc.skip 1) hc.isBoundary (Cursor.position_lt_skip_char hopen)
  | noPrimary => exact areAt_nil (Nat.le_refl _)
  | @construct _ c c₁ c' start primary callee hprimary hcallee _ _ ihprimary ihcallee =>
    intro hstart hle
    have hc₁ := hprimary.isIn hc.pastBlanks
    have hfirst : AreAt text c.pastBlanks.position c₁.position [primary] := ihprimary hc.pastBlanks
    obtain ⟨hnodes, hstop⟩ := ihcallee hc₁ start
      (hfirst.mono (Nat.le_trans hle c.position_pastBlanks_le) (Nat.le_refl _))
    -- With arguments the node ends where they do, and without any where the callee does.
    rcases hstop with hstop | ⟨hstop, hnil⟩
    · rw [hstop]
      exact areAt_between hnodes hnodes.lt rfl hstart (hcallee.isIn hc₁).isBoundary
    · rw [hstop, hnil]
      rw [hnil] at hnodes
      exact areAt_upto hnodes rfl rfl hstart
  | noCalleeLink => exact fun _ hbefore => ⟨hbefore, Or.inr ⟨rfl, rfl⟩⟩
  | @calleeAccess _ c c₁ c' before between access callee _ hderives _ ihbetween ih =>
    intro lo hbefore
    have hc₁ := hc.pastBlanks.skip access.text.length
    exact ih (hderives.isIn hc₁) lo
      (ihbetween hc₁ lo (hbefore.mono (Nat.le_refl _) (c.position_pastBlanks_skip_le _)))
  | @calleeArguments _ c c' before es _ _ _ ih =>
    intro lo hbefore
    have hes : AreAt text (c.pastBlanks.skip 1).position c'.position es := ih (hc.pastBlanks.skip 1)
    exact ⟨hbefore.append (hes.mono (c.position_pastBlanks_skip_le 1) (Nat.le_refl _)), Or.inl rfl⟩
  | @updated _ c c' operator start argument _ _ ih =>
    intro hstart hle
    have hargument : AreAt text c.position c'.position [argument] := ih hc
    exact areAt_upto (hargument.mono hle (Nat.le_refl _)) rfl rfl hstart
  | @array _ c c' start elements hderives _ ih =>
    intro hstart hlt
    have helements : AreAt text c.position c'.position (elements.filterMap id) := ih hc
    have hstop := (hderives.isIn hc).skip 1
    have hle := c'.position_skip_le 1
    have hwhole := helements.mono (Nat.le_of_lt hlt) hle
    exact areAt_between hwhole (by have := helements.le; omega) rfl hstart hstop.isBoundary
  | @lastElement _ c c' e? _ _ ih =>
    have he : AreAt text c.position c'.position e?.toList := ih hc
    show AreAt text c.position c'.pastBlanks.position ((e?.toList.map some).filterMap id)
    rw [filterMap_id_toList]
    exact he.mono (Nat.le_refl _) c'.position_pastBlanks_le
  | @moreElements _ c c₁ c' e? elements hderives _ _ ihe ih =>
    have he : AreAt text c.position c₁.position e?.toList := ihe hc
    have helements : AreAt text (c₁.pastBlanks.skip 1).position c'.position
        (elements.filterMap id) := ih ((hderives.isIn hc).pastBlanks.skip 1)
    have hall := he.append (helements.mono (c₁.position_pastBlanks_skip_le 1) (Nat.le_refl _))
    -- A hole has no tree, and no place among the others.
    cases e? <;> exact hall

end Grammar

namespace Expr

/-- The spans of all nodes that are read suit the text and one another. -/
theorem parseWithin_wellSpanned {limits : Limits} {source : String} {e : Expr}
    (h : parseWithin limits source = .ok e) : ∀ n ∈ e.nodes, n.WellSpanned source.toList := by
  obtain ⟨c', hderives, -⟩ := readsWithin_of_parseWithin_eq_ok h
  have hlocated := hderives.located (Cursor.isIn_ofString source)
  exact hlocated.nodes e (List.mem_singleton_self e)

/-- The spans of `(a, b).c?.(d)`: the sequence has its parentheses, and no blank is in any. -/
theorem parseWithin_wellSpanned_group : ∃ e, parse " (a, b).c?.(d)" = .ok e ∧
    ∀ n ∈ e.nodes, n.WellSpanned " (a, b).c?.(d)".toList := by
  have hcheck : (parse " (a, b).c?.(d)").isOk = true := by decide +kernel
  cases hparse : parse " (a, b).c?.(d)" with
  | ok e => exact ⟨e, rfl, parseWithin_wellSpanned hparse⟩
  | error error =>
    rw [hparse] at hcheck
    cases hcheck

end Expr

end Estree
