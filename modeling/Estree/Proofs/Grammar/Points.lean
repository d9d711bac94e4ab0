import Estree.Proofs.Expr.Points
import Estree.Proofs.Grammar.Shape

/-!
# Points that are passed

Whatever is read, at least as many points are passed as the tree weighs (`Derives.spends`). For a
`new` that is misread this is one more than its parts weigh: the call on the spine of its callee has
been read after a point, `new typeof.(x)`, which leaves no trace in the tree.

The weight of a tree is the number of points that its own text has, and one for each `new` that is
misread. So if a text has no more points than the tree needs that is read from it, no `new` of the
tree is misread.

> `Spends`: from one cursor to the other at least as many points are passed as the yield weighs.
> `Links.spare`: the point that a run still owes, if it would be misread as the callee of a `new`.
> `isMisread_spare`: at the end of a callee the spare point is the one that a misread `new` adds.

In the callee of a `new` a call can only come right after a point, as a parenthesis without one
begins the arguments. The tree has no trace of this point, so it is spare. Anywhere else a call
needs no point. For this reason links keep two accounts, one for runs anywhere and one for callees,
and in the second one the spare point is counted on both sides. An optional link takes it away, as
then no callee comes of the run.
-/

open Estree.Expr

namespace Estree

/-! ## Points before a cursor and after it -/

/-- The points that are still to come. -/
def Cursor.points (c : Cursor) : Nat :=
  c.rest.count '.'

/-- The points that an access is written with. -/
def Access.points (access : Access) : Nat :=
  access.text.toList.count '.'

namespace Cursor

variable {c c' : Cursor}

/-- No points come up when characters are skipped. -/
theorem points_skip_le (c : Cursor) (n : Nat) : (c.skip n).points ≤ c.points :=
  (List.drop_sublist n c.rest).count_le '.'

/-- Nor when blanks are. -/
theorem points_skipBlanks_le (c : Cursor) (lineEnds : Bool) :
    (c.skipBlanks lineEnds).points ≤ c.points :=
  (List.dropWhile_sublist _).count_le '.'

/-- Nor before the next solid character. -/
theorem points_pastBlanks_le (c : Cursor) : c.pastBlanks.points ≤ c.points :=
  c.points_skipBlanks_le true

/-- Nor by both. -/
theorem points_pastBlanks_skip_le (c : Cursor) (n : Nat) :
    (c.pastBlanks.skip n).points ≤ c.points :=
  Nat.le_trans (points_skip_le _ n) c.points_pastBlanks_le

/-- Of a piece that is passed, its points are gone. -/
theorem Passes.points_eq {piece : List Char} (h : c.Passes piece c') :
    c'.points + piece.count '.' = c.points := by
  rw [points, points, h.rest_eq, List.count_append, Nat.add_comm]

end Cursor

/-- Taking an access passes its points. -/
theorem Cursor.points_access {c : Cursor} {access : Access}
    (h : Token.access? c.pastBlanks.rest = some access) :
    (c.pastBlanks.skip access.text.length).points + access.points ≤ c.points := by
  obtain ⟨rest, hrest⟩ := Token.access?_eq_some h
  have hpoints : (c.pastBlanks.skip access.text.length).points + access.points =
      c.pastBlanks.points :=
    (passes_skip hrest).points_eq
  have hblanks := c.points_pastBlanks_le
  omega

/-! ## What is spent -/

/-- One point, if a `new` before the run would be misread by now. -/
def Links.spare (links : Links) : Nat :=
  (!links.hasOptional && links.node.hasCallInSpine).toNat

namespace Grammar

/-- From one cursor to the other at least as many points are passed as the yield weighs. Where a run
grows, also those that a `new` may take for itself are counted. -/
def Spends : (p : Production) → Cursor → p.Yield → Cursor → Prop
  | .sequence _, c, e?, c' | .expression, c, e?, c' | .conditional, c, e?, c' | .unary, c, e?, c'
  | .unaryForm, c, e?, c' | .token, c, e?, c' | .primary, c, e?, c' | .primaryForm, c, e?, c' =>
    c'.points + weights e?.toList ≤ c.points
  | .expressions _, c, es, c' | .arguments, c, es, c' | .argumentList, c, es, c' =>
    c'.points + weights es ≤ c.points
  | .elements, c, elements, c' => c'.points + weights (elements.filterMap id) ≤ c.points
  | .operands _, c, climbed?, c' | .climb _, c, climbed?, c' =>
    c'.points + weights (climbed?.map (·.expr)).toList ≤ c.points
  | .infixes _ left _, c, climbed, c' =>
    c'.points + climbed.expr.weight ≤ c.points + left.expr.weight
  | .construct _, c, e, c' | .updated .., c, e, c' | .array _, c, e, c' =>
    c'.points + e.weight ≤ c.points
  | .links before, c, after, c' => c'.points + after.node.weight ≤ c.points + before.node.weight
  | .member before access, c, after, c' | .accesses before access, c, after, c' =>
    c'.points + after.node.weight ≤ access.points + c.points + before.node.weight ∧
      c'.points + after.node.weight + after.spare ≤
        access.points + c.points + before.node.weight + before.spare
  | .call before optional, c, after, c' =>
    c'.points + after.node.weight ≤ optional.toNat + c.points + before.node.weight ∧
      c'.points + after.node.weight + after.spare ≤ 1 + c.points + before.node.weight
  | .calleeLinks before, c, callee, c' =>
    c'.points + callee.links.node.weight + weights callee.arguments ≤
      c.points + before.node.weight ∧
      c'.points + callee.links.node.weight + weights callee.arguments + callee.links.spare ≤
        c.points + before.node.weight + before.spare

variable {c c' : Cursor} {e : Expr} {es : List Expr} {before after : Links}

/-- A node around expressions weighs what they do. -/
theorem weights_sequenceNode? (grouped? : Option Span) (es : List Expr) :
    weights (sequenceNode? grouped? es).toList = weights es := by
  rcases es with _ | ⟨first, _ | ⟨second, rest⟩⟩
  · rfl
  · rfl
  · show weights [_] = _
    rw [weights_cons, weights_nil, weight_of_plain rfl rfl]
    rfl

/-- Joined operands weigh what both do. -/
theorem weight_join (operator : InfixOperator) (left right : Expr) :
    (operator.join left right).weight = left.weight + right.weight := by
  rcases operator with operator | operator
  · exact weight_of_plain (e := .binary _ operator left right) rfl rfl
  · exact weight_of_plain (e := .logical _ operator left right) rfl rfl

/-- A chain weighs what the run does. -/
theorem weight_finish (links : Links) : links.finish.weight = links.node.weight := by
  rw [Links.finish]
  split
  next => exact weight_of_plain rfl rfl
  next => rfl

/-- A member access weighs its own points more, and what is spare gets no more by it. -/
theorem memberLinks_spends (before : Links) (property : Expr) (access : Access) (stop : Nat) :
    (memberLinks before property access stop).node.weight =
        access.points + before.node.weight + property.weight ∧
      (memberLinks before property access stop).spare ≤ before.spare := by
  refine ⟨?_, ?_⟩
  · show Expr.weight (.member _ before.node property access.computed access.optional) = _
    rw [weight_eq, children, weights_cons, weights_cons, weights_nil]
    show access.points + 0 + _ = _
    omega
  · show (!(before.hasOptional || access.optional) && before.node.hasCallInSpine).toNat ≤
      (!before.hasOptional && before.node.hasCallInSpine).toNat
    cases before.hasOptional <;> cases access.optional <;> simp

/-- A call weighs one point more if it is optional, and only then nothing is spare after it. -/
theorem callLinks_spends (before : Links) (es : List Expr) (optional : Bool) (stop : Nat) :
    (callLinks before es optional stop).node.weight =
        optional.toNat + before.node.weight + weights es ∧
      optional.toNat + (callLinks before es optional stop).spare ≤ 1 := by
  refine ⟨?_, ?_⟩
  · show Expr.weight (.call _ before.node es optional) = _
    rw [weight_eq, children, weights_cons]
    show optional.toNat + 0 + _ = _
    omega
  · show optional.toNat + (!(before.hasOptional || optional) && true).toNat ≤ 1
    cases before.hasOptional <;> cases optional <;> decide

/-- A word weighs nothing. -/
theorem weight_ofWord (span : Span) (word : String) : (Leaf.ofWord span word).weight = 0 := by
  unfold Leaf.ofWord
  split <;> exact weight_of_plain rfl rfl

/-- A number weighs the points that it is spelled with. -/
theorem number_spends (hstart : Pattern.numberStart.isAtStart c.rest = true)
    (h : Leaf.number c = .ok e c') : c'.points + e.weight ≤ c.points := by
  obtain ⟨text, decimal, -, -, hpass, rfl⟩ := Leaf.number_eq_ok hstart h
  rw [weight_eq, ← hpass.points_eq]
  show c'.points + ((String.ofList text).toList.count '.' + 0 + 0) ≤ _
  rw [String.toList_ofList]
  exact Nat.le_refl _

/-- A name weighs nothing. -/
theorem propertyName_spends (h : Leaf.propertyName c = .ok e c') :
    c'.points ≤ c.points ∧ e.weight = 0 := by
  obtain ⟨-, rfl, rfl⟩ := Leaf.propertyName_eq_ok.1 h
  exact ⟨c.points_skip_le _, weight_eq _⟩

/-- A `new` that is misread has a call on the spine of its callee. -/
theorem isMisread_spare {callee : Links} {primary : Expr} {text : List Char} {span : Span}
    (hprimary : IsPrimary text primary) (hgrows : Grows ⟨primary, false⟩ callee)
    (hoptional : callee.hasOptional = false)
    (hmisread : (Expr.new span callee.node es).isMisread = true) :
    Links.spare ⟨primary, false⟩ = 0 ∧ callee.spare = 1 := by
  obtain ⟨hgrouped, hword⟩ := Bool.and_eq_true_iff.1 hmisread
  have hword' : primary.opensWithOperator = true := hgrows.word ▸ hword
  refine ⟨?_, ?_⟩
  · -- The first part of a run that begins with the word of an operator is an identifier.
    have hungrouped : primary.isGroupedAfterNew = false := Bool.eq_false_iff.2 fun hgrouped => by
      rw [hprimary.grouped hgrouped] at hword'
      cases hword'
    obtain ⟨hnot, -⟩ := Bool.or_eq_false_iff.1 hungrouped
    rw [Links.spare, (Bool.or_eq_false_iff.1 hnot).2]
    rfl
  · -- Of the reasons for parentheses after `new` only a call on the spine is left.
    have hcall : callee.node.hasCallInSpine = true := by
      refine Bool.not_eq_false _ ▸ fun hcall => ?_
      have hlink : callee.node.isGroupedBeforeLink = true := by
        rw [isGroupedAfterNew, hcall, Bool.or_false] at hgrouped
        exact hgrouped
      rw [hgrows.isRun.grouped hlink] at hword
      cases hword
    rw [Links.spare, hoptional, hcall]
    rfl

/-- Whatever is read, the points for it have been passed. -/
theorem Derives.spends {depth : Nat} {p : Production} {c c' : Cursor} {v : p.Yield}
    (h : Derives depth p c v c') : Spends p c v c' := by
  -- The hypotheses are restated before `omega`, which does not see through `Spends`.
  induction h with
  | @ungrouped _ c c' es _ ih =>
    have hes : c'.points + weights es ≤ c.pastBlanks.points := ih
    have hblanks := c.points_pastBlanks_le
    show c'.points + weights (sequenceNode? none es).toList ≤ c.points
    rw [weights_sequenceNode?]
    omega
  | @grouped _ c c' es _ _ _ _ ih =>
    have hes : c'.points + weights es ≤ (c.pastBlanks.skip 1).points := ih
    have hopen := c.points_pastBlanks_skip_le 1
    have hclose := c'.points_skip_le 1
    show (c'.skip 1).points + weights (sequenceNode? _ es).toList ≤ c.points
    rw [weights_sequenceNode?]
    omega
  | @lastExpression _ c c' e? _ _ _ _ ih =>
    have he : c'.points + weights e?.toList ≤ c.points := ih
    exact Nat.le_trans (Nat.add_le_add_right c'.points_pastBlanks_le _) he
  | @moreExpressions _ c c₁ c' e es _ _ _ _ ihe ihes =>
    have he : c₁.points + e.weight ≤ c.points := ihe
    have hes : c'.points + weights es ≤ (c₁.pastBlanks.skip 1).points := ihes
    have hcomma := c₁.points_pastBlanks_skip_le 1
    show c'.points + weights (e :: es) ≤ c.points
    rw [weights_cons]
    omega
  | expression _ ih => exact ih
  | @unconditional _ c c' operands? _ _ ih =>
    have hoperands : c'.points + weights (operands?.map (·.expr)).toList ≤ c.points := ih
    exact Nat.le_trans (Nat.add_le_add_right c'.points_pastBlanks_le _) hoperands
  | @conditional _ c c₁ c₂ c' test consequent alternate _ _ _ _ _ ihtest ihconsequent ihalternate =>
    have htest : c₁.points + test.expr.weight ≤ c.points := ihtest
    have hconsequent : c₂.points + consequent.weight ≤ (c₁.pastBlanks.skip 1).points := ihconsequent
    have halternate : c'.points + alternate.weight ≤ (c₂.pastBlanks.skip 1).points := ihalternate
    have hquestion := c₁.points_pastBlanks_skip_le 1
    have hcolon := c₂.points_pastBlanks_skip_le 1
    show c'.points + Expr.weight (.conditional _ test.expr consequent alternate) ≤ c.points
    rw [weight_of_plain rfl rfl, children, weights_cons, weights_cons, weights_cons, weights_nil]
    omega
  | operands _ ih => exact ih
  | @noOperand _ c c' _ _ ih =>
    have hc' : c'.points ≤ c.pastBlanks.points := ih
    exact Nat.le_trans hc' c.points_pastBlanks_le
  | @climb _ c c₁ c' _ left climbed _ _ ihleft ih =>
    have hleft : c₁.points + left.weight ≤ c.pastBlanks.points := ihleft
    have hclimbed : c'.points + climbed.expr.weight ≤ c₁.points + left.weight := ih
    have hblanks := c.points_pastBlanks_le
    show c'.points + climbed.expr.weight ≤ c.points
    omega
  | @noInfix _ c _ left _ _ => exact Nat.add_le_add_right c.points_pastBlanks_le _
  | @joined _ c c₁ c' _ left right climbed _ operator _ _ _ _ _ _ ihright ih =>
    have hright : c₁.points + right.expr.weight ≤
        (c.pastBlanks.skip operator.text.length).points := ihright
    have hclimbed : c'.points + climbed.expr.weight ≤
        c₁.points + (operator.join left.expr right.expr).weight := ih
    have hoperator := c.points_pastBlanks_skip_le operator.text.length
    -- An operator has no points, so joined operands weigh what they weigh apart.
    rw [weight_join] at hclimbed
    show c'.points + climbed.expr.weight ≤ c.points + left.expr.weight
    omega
  | unary _ ih => exact ih
  | @unaryOperator _ c c' operator argument _ _ ih =>
    have hargument : c'.points + argument.weight ≤
        (c.pastBlanks.skip operator.text.length).points := ih
    have hoperator := c.points_pastBlanks_skip_le operator.text.length
    show c'.points + Expr.weight (.unary _ operator true argument) ≤ c.points
    rw [weight_of_plain rfl rfl, children, weights_cons, weights_nil]
    omega
  | @noUnaryOperator _ c c' e? _ _ ih =>
    have he : c'.points + weights e?.toList ≤ c.pastBlanks.points := ih
    exact Nat.le_trans he c.points_pastBlanks_le
  | @noToken _ c c' _ ih =>
    have hc' : c'.points ≤ c.pastBlanks.points := ih
    exact Nat.le_trans hc' c.points_pastBlanks_le
  | @token _ c c₁ c' primary run _ _ _ ihprimary ihrun =>
    have hprimary : c₁.points + primary.weight ≤ c.pastBlanks.points := ihprimary
    have hrun : c'.points + run.node.weight ≤ c₁.points + primary.weight := ihrun
    have hblanks := c.points_pastBlanks_le
    have hinline := c'.points_skipBlanks_le false
    show (c'.skipBlanks false).points + run.finish.weight ≤ c.points
    rw [weight_finish]
    omega
  | @trailingUpdate _ c c₁ c' primary run operator _ _ _ _ ihprimary ihrun =>
    have hprimary : c₁.points + primary.weight ≤ c.pastBlanks.points := ihprimary
    have hrun : c'.points + run.node.weight ≤ c₁.points + primary.weight := ihrun
    have hblanks := c.points_pastBlanks_le
    have hinline := c'.points_skipBlanks_le false
    have hoperator := (c'.skipBlanks false).points_skip_le operator.text.length
    show ((c'.skipBlanks false).skip operator.text.length).points +
      Expr.weight (.update _ operator false run.finish) ≤ c.points
    rw [weight_of_plain rfl rfl, children, weights_cons, weights_nil, weight_finish]
    omega
  | noLink => exact Nat.le_refl _
  | @linkAccess _ c c₁ c' before between after access haccess _ _ ihbetween ih =>
    have hbetween : c₁.points + between.node.weight ≤
        access.points + (c.pastBlanks.skip access.text.length).points + before.node.weight :=
      ihbetween.1
    have hafter : c'.points + after.node.weight ≤ c₁.points + between.node.weight := ih
    have hpoints := Cursor.points_access haccess
    show c'.points + after.node.weight ≤ c.points + before.node.weight
    omega
  | @linkCall _ c c₁ c' before between after _ _ _ _ ihbetween ih =>
    have hbetween : c₁.points + between.node.weight ≤
        0 + (c.pastBlanks.skip 1).points + before.node.weight := ihbetween.1
    have hafter : c'.points + after.node.weight ≤ c₁.points + between.node.weight := ih
    have hopen := c.points_pastBlanks_skip_le 1
    show c'.points + after.node.weight ≤ c.points + before.node.weight
    omega
  | member _ ih => exact ih
  | @computedLast _ c c' before access property _ _ _ _ ih =>
    have hproperty : c'.points + property.weight ≤ c.points := ih
    have hclose := c'.points_pastBlanks_skip_le 1
    -- Both accounts are settled alike: the node weighs its parts and the points of the access.
    obtain ⟨hweight, hspare⟩ :=
      memberLinks_spends before property access (c'.pastBlanks.skip 1).position
    refine ⟨?_, ?_⟩ <;> (rw [hweight]; omega)
  | @computedNext _ c c₁ c' before after access next property _ _ _ hnext _ ihproperty ih =>
    have hproperty : c₁.points + property.weight ≤ c.points := ihproperty
    have hclose := c₁.points_pastBlanks_skip_le 1
    have hpoints := Cursor.points_access hnext
    obtain ⟨hweight, hspare⟩ :=
      memberLinks_spends before property access (c₁.pastBlanks.skip 1).position
    obtain ⟨hafter, hafterSpare⟩ := ih
    rw [hweight] at hafter hafterSpare
    refine ⟨?_, ?_⟩ <;> omega
  | @namedLast _ c c' before access property _ _ hname _ =>
    obtain ⟨hc', hproperty⟩ := propertyName_spends hname
    have hblanks := c.points_pastBlanks_le
    obtain ⟨hweight, hspare⟩ := memberLinks_spends before property access property.span.stop
    refine ⟨?_, ?_⟩ <;> (rw [hweight]; omega)
  | @namedNext _ c c₁ c' before after access next property _ _ hname hnext _ ih =>
    obtain ⟨hc₁, hproperty⟩ := propertyName_spends hname
    have hblanks := c.points_pastBlanks_le
    have hpoints := Cursor.points_access hnext
    obtain ⟨hweight, hspare⟩ := memberLinks_spends before property access property.span.stop
    obtain ⟨hafter, hafterSpare⟩ := ih
    rw [hweight] at hafter hafterSpare
    refine ⟨?_, ?_⟩ <;> omega
  | @accessedCall _ c c' before after access hcomputed _ _ ih =>
    have hopen := c.points_pastBlanks_skip_le 1
    -- The point of the access is the one that the call may leave over.
    have hpoint : access.points = 1 ∧ access.optional.toNat ≤ 1 := by
      rcases access with ⟨_ | _, _ | _⟩ <;> first | decide | cases hcomputed
    obtain ⟨hafter, hafterSpare⟩ := ih
    refine ⟨?_, ?_⟩ <;> dsimp only at hafter hafterSpare <;> omega
  | @callLast _ c c' before optional es _ _ ih =>
    have hes : c'.points + weights es ≤ c.points := ih
    obtain ⟨hweight, hspare⟩ := callLinks_spends before es optional c'.position
    refine ⟨?_, ?_⟩ <;> (rw [hweight]; omega)
  | @callNext _ c c₁ c' before after optional next es _ hnext _ ihes ih =>
    have hes : c₁.points + weights es ≤ c.points := ihes
    have hpoints := Cursor.points_access hnext
    obtain ⟨hweight, hspare⟩ := callLinks_spends before es optional c₁.position
    obtain ⟨hafter, hafterSpare⟩ := ih
    rw [hweight] at hafter hafterSpare
    refine ⟨?_, ?_⟩ <;> omega
  | @arguments _ c c' es _ _ ih =>
    have hes : c'.points + weights es ≤ c.points := ih
    exact Nat.le_trans (Nat.add_le_add_right (c'.points_skip_le 1) _) hes
  | @lastArgument _ c c' e? _ _ ih =>
    have he : c'.points + weights e?.toList ≤ c.points := ih
    exact Nat.le_trans (Nat.add_le_add_right c'.points_pastBlanks_le _) he
  | @moreArguments _ c c₁ c' e es _ _ _ ihe ihes =>
    have he : c₁.points + e.weight ≤ c.points := ihe
    have hes : c'.points + weights es ≤ (c₁.pastBlanks.skip 1).points := ihes
    have hcomma := c₁.points_pastBlanks_skip_le 1
    show c'.points + weights (e :: es) ≤ c.points
    rw [weights_cons]
    omega
  | primary _ ih => exact ih
  | group _ _ ih => exact ih
  | @leadingUpdate _ c c' operator e _ _ ih =>
    have he : c'.points + e.weight ≤ (c.skip operator.text.length).points := ih
    exact Nat.le_trans he (c.points_skip_le _)
  | @new _ c c' e _ _ ih =>
    have he : c'.points + e.weight ≤ (c.skip "new".toList.length).points := ih
    exact Nat.le_trans he (c.points_skip_le _)
  | @word _ c word _ _ _ =>
    show (c.skip word.length).points + Expr.weight (Leaf.ofWord _ _) ≤ c.points
    rw [weight_ofWord]
    exact c.points_skip_le _
  | number hstart h => exact number_spends hstart h
  | @arrayLiteral _ c c' e _ _ ih =>
    have he : c'.points + e.weight ≤ (c.skip 1).points := ih
    exact Nat.le_trans he (c.points_skip_le _)
  | noPrimary => exact Nat.le_refl _
  | @construct _ c c₁ c' start primary callee hprimary hcallee hoptional _ ihprimary ihcallee =>
    have hfirst : c₁.points + primary.weight ≤ c.pastBlanks.points := ihprimary
    have hblanks := c.points_pastBlanks_le
    obtain ⟨hlinks, hspare⟩ := ihcallee
    dsimp only at hlinks hspare
    show c'.points + Expr.weight (.new _ callee.links.node callee.arguments) ≤ c.points
    rw [weight_eq, children, weights_cons]
    show c'.points + (0 + _ + _) ≤ c.points
    -- The point that a misread `new` weighs more has been left over by the call in its callee: the
    -- second half of the accounts for the callee holds it, and nothing was spare before.
    cases hmisread : (Expr.new ⟨start, callee.stop?.getD callee.links.node.span.stop⟩
        callee.links.node callee.arguments).isMisread with
    | false =>
      rw [Bool.toNat_false]
      omega
    | true =>
      have hshaped := hprimary.shaped primary rfl
      obtain ⟨hgrows, -⟩ := hcallee.shaped hshaped.isRun
      obtain ⟨hnone, hone⟩ := isMisread_spare hshaped hgrows hoptional hmisread
      rw [Bool.toNat_true]
      omega
  | @noCalleeLink _ c before _ _ => exact ⟨Nat.le_refl _, Nat.le_refl _⟩
  | @calleeAccess _ c c₁ c' before between access callee haccess _ _ ihbetween ih =>
    have hpoints := Cursor.points_access haccess
    obtain ⟨hbetween, hbetweenSpare⟩ := ihbetween
    obtain ⟨hcallee, hcalleeSpare⟩ := ih
    refine ⟨?_, ?_⟩ <;> omega
  | @calleeArguments _ c c' before es _ _ _ ih =>
    have hes : c'.points + weights es ≤ (c.pastBlanks.skip 1).points := ih
    have hopen := c.points_pastBlanks_skip_le 1
    refine ⟨?_, ?_⟩ <;> dsimp only <;> omega
  | @updated _ c c' operator _ argument _ _ ih =>
    have hargument : c'.points + argument.weight ≤ c.points := ih
    show c'.points + Expr.weight (.update _ operator true argument) ≤ c.points
    rw [weight_of_plain rfl rfl, children, weights_cons, weights_nil]
    exact hargument
  | @array _ c c' _ elements _ _ ih =>
    have helements : c'.points + weights (elements.filterMap id) ≤ c.points := ih
    have hclose := c'.points_skip_le 1
    show (c'.skip 1).points + Expr.weight (.array _ elements) ≤ c.points
    rw [weight_of_plain rfl rfl, children]
    omega
  | @lastElement _ c c' e? _ _ ih =>
    have he : c'.points + weights e?.toList ≤ c.points := ih
    -- A hole weighs nothing.
    have hfilter : (e?.toList.map some).filterMap id = e?.toList := by
      cases e? <;> rfl
    show c'.pastBlanks.points + weights ((e?.toList.map some).filterMap id) ≤ c.points
    rw [hfilter]
    exact Nat.le_trans (Nat.add_le_add_right c'.points_pastBlanks_le _) he
  | @moreElements _ c c₁ c' e? elements _ _ _ ihe ih =>
    have he : c₁.points + weights e?.toList ≤ c.points := ihe
    have helements : c'.points + weights (elements.filterMap id) ≤
        (c₁.pastBlanks.skip 1).points := ih
    have hcomma := c₁.points_pastBlanks_skip_le 1
    have hcons : weights ((e? :: elements).filterMap id) =
        weights e?.toList + weights (elements.filterMap id) := by
      cases e? with
      | none => exact (Nat.zero_add _).symm
      | some e => exact weights_cons e _
    show c'.points + weights ((e? :: elements).filterMap id) ≤ c.points
    rw [hcons]
    omega

end Grammar

end Estree
