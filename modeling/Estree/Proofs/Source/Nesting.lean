import Estree.Proofs.Grammar.Enclosed
import Estree.Proofs.Source.Covered
import Estree.Proofs.Source.RoundTrip

/-!
# Nesting of what has been read

A text that is written for a tree that has been read is not always read again within the same
limits: `new a` is written as `new a()`, and to look for arguments takes more levels than `new a`
has. Here it is shown that this is all. Each bracket of the text that the source has too was opened
when the tree was read, so the text can only be deeper on a way down the tree that meets a bracket
which the source left out:

> `Derives.opened`: the kept levels of whatever is read have been opened for it.
> `parseWithin_toSource_gained`: what has been read within some depth is written as a text that is
> read as the same tree within any depth that is no smaller and suffices for the ways with gained
> brackets.

`Derives.opened` is an induction on derivations. `Opened` says for each production what its yield is
known to have: for an operand that it was read in parentheses, or that it needs none
(`IsJoined`, `IsUnary`, `IsWhole`); for a run of links that its first part has enough if the run
does go on (`IsOpenRun`). The induction carries along that the cursor is a place in the source, as
two productions look at it: digits that are a first part, and the callee of a `new`, which needs to
know that it stands behind that word.
-/

open Estree.Expr

namespace Estree

namespace Grammar

/-! ## What has been opened -/

/-- The levels that have been opened for the yield of a production. -/
def Opened (source : String) (depth : Nat) : (p : Production) → Cursor → p.Yield → Cursor → Prop
  | .sequence _, _, e?, _ => ∀ e ∈ e?, Covered source depth 3 false e
  | .expression, _, e?, _ => ∀ e ∈ e?, Covered source depth 3 (e.isGroupedAt Level.conditional) e
  | .conditional, _, e?, _ => ∀ e ∈ e?, Covered source depth 2 (e.isGroupedAt Level.conditional) e
  | .expressions _, _, es, _ | .arguments, _, es, _ | .argumentList, _, es, _ =>
    ∀ e ∈ es, Covered source depth 3 (e.isGroupedAt Level.conditional) e
  | .elements, _, elements, _ =>
    ∀ e, some e ∈ elements → Covered source depth 3 (e.isGroupedAt Level.conditional) e
  | .operands least, _, x?, _ =>
    ∀ x ∈ x?, ∀ below, depth = below + 2 → IsJoined source below least x
  | .climb least, _, x?, _ => ∀ x ∈ x?, ∀ below, depth = below + 1 → IsJoined source below least x
  | .infixes least left isBareUnary, c, climbed, _ => ∀ below, depth = below + 1 → 1 ≤ below →
    (Covered source below 0 true left.expr ∨ IsLeft source below least left isBareUnary c) →
    IsJoined source below least climbed
  | .unary, c, e?, _ => ∀ e ∈ e?, ∀ below, depth = below + 1 → IsUnary source below c e
  | .unaryForm, c, e?, _ => ∀ e ∈ e?, IsUnary source depth c e
  | .token, _, e?, _ => ∀ e ∈ e?, IsWhole source depth e
  | .links before, c, after, c' =>
    1 ≤ depth → IsOpenRun source depth before.node c → IsOpenRun source depth after.node c'
  | .member before _, _, after, _ | .accesses before _, _, after, _ | .call before _, _, after, _ =>
    1 ≤ depth → Covered source depth 0 (before.node.keepsGroup source) before.node →
      Covered source depth 0 (after.node.keepsGroup source) after.node
  | .primary, c, e?, c' => ∀ e ∈ e?, IsFirst source depth e c' ∧
    (c.rest.head? = some '(' → Covered source depth 0 true e)
  | .primaryForm, c, e?, c' => ∀ e ∈ e?, IsFirst source (depth + 1) e c' ∧
    (c.rest.head? = some '(' → Covered source (depth + 1) 0 true e)
  | .construct _, c, e, _ => c.IsBehindSolid source.toList →
    Covered source (depth + 1) 0 (e.keepsGroup source) e
  | .array _, _, e, _ => Covered source (depth + 1) 0 (e.keepsGroup source) e
  | .updated .., _, e, _ => e.isLeadingUpdate = true ∧ Covered source (depth + 1) 0 false e
  | .calleeLinks before, c, callee, _ =>
    (1 ≤ depth → IsOpenRun source depth before.node c →
      Covered source depth 0 callee.links.node.isGroupedBeforeLink callee.links.node) ∧
    (4 ≤ depth ∨ callee.stop? = none ∧ callee.arguments = []) ∧
    ∀ e ∈ callee.arguments, Covered source depth 3 (e.isGroupedAt Level.conditional) e

variable {source : String} {depth : Nat} {c c' : Cursor} {e : Expr} {es : List Expr}
  {before after : Links}

/-- Nothing goes on with a run where no link follows. -/
theorem links_eq_of_hasNoLink (h : Derives depth (.links before) c after c') (hno : c.HasNoLink) :
    after = before ∧ c' = c := by
  cases h with
  | noLink => exact ⟨rfl, rfl⟩
  | linkAccess haccess =>
    rw [hno.access] at haccess
    cases haccess
  | linkCall _ hparen => exact absurd hparen hno.paren

/-- Where no link follows, the callee is what is there already. -/
theorem calleeLinks_eq_of_hasNoLink {callee : Callee}
    (h : Derives depth (.calleeLinks before) c callee c') (hno : c.HasNoLink) :
    callee = ⟨before, [], none⟩ ∧ c' = c := by
  cases h with
  | noCalleeLink => exact ⟨rfl, rfl⟩
  | calleeAccess haccess =>
    rw [hno.access] at haccess
    cases haccess
  | calleeArguments _ hparen => exact absurd hparen hno.paren

/-- Several items make up a sequence, and one is the item itself without parentheses. -/
theorem covered_sequenceNode? {grouped? : Option Span} (hdepth : 4 ≤ depth)
    (h : ∀ e ∈ es, Covered source depth 3 (e.isGroupedAt Level.conditional) e) :
    ∀ e ∈ sequenceNode? grouped? es, Covered source depth 3 false e := by
  intro e he
  rcases es with _ | ⟨first, _ | ⟨second, rest⟩⟩
  · cases he
  · cases he
    exact (h _ (List.mem_cons_self ..)).ungrouped
  · cases he
    exact covered_sequence hdepth h

/-- A run of which all links are covered is a token. -/
theorem isWhole_finish {run : Links} (hdepth : 1 ≤ depth)
    (h : Covered source depth 0 run.node.isGroupedBeforeLink run.node) :
    IsWhole source depth run.finish := by
  have hfinish := covered_finish hdepth h.ungrouped
  unfold Links.finish at hfinish ⊢
  split
  next hoptional =>
    rw [if_pos hoptional] at hfinish
    exact Or.inr ⟨hfinish, show Level.unary ≤ Level.call by decide, rfl⟩
  next =>
    cases hgrouped : run.node.isGroupedBeforeLink with
    | true =>
      rw [hgrouped] at h
      exact Or.inl h
    | false =>
      obtain ⟨-, hlevel⟩ := ungroupedBeforeLink hgrouped
      have hcall : Level.unary ≤ Level.call := by decide
      exact Or.inr ⟨h.ungrouped, Nat.le_trans hcall hlevel, isUnary_of_level hlevel⟩

/-- A complete token, whether its first part is a run or an update without links. -/
theorem IsFirst.token {primary : Expr} {run : Links} (h : IsFirst source depth primary c)
    (hrun : Derives depth (.links ⟨primary, false⟩) c run c') (hdepth : 1 ≤ depth)
    (hlinks : IsOpenRun source depth primary c → IsOpenRun source depth run.node c') :
    IsWhole source depth run.finish := by
  rcases h with hfirst | ⟨hupdate, hcovered, hno⟩
  · exact isWhole_finish hdepth (hlinks hfirst).covered
  · obtain ⟨rfl, -⟩ := links_eq_of_hasNoLink hrun hno
    cases primary with
    | update span operator leading argument =>
      obtain rfl : leading = true := hupdate
      exact Or.inr ⟨hcovered, Nat.le_refl _, rfl⟩
    | _ => cases hupdate

/-- A callee that has been read as a run, or as an update without links. -/
theorem IsFirst.callee {primary : Expr} {callee : Callee} (h : IsFirst source depth primary c)
    (hcallee : Derives depth (.calleeLinks ⟨primary, false⟩) c callee c')
    (hlinks : IsOpenRun source depth primary c →
      Covered source depth 0 callee.links.node.isGroupedBeforeLink callee.links.node) :
    Covered source depth 0 callee.links.node.isGroupedBeforeLink callee.links.node ∨
      callee.links.node.isLeadingUpdate = true ∧
        Covered source depth 0 false callee.links.node := by
  rcases h with hfirst | ⟨hupdate, hcovered, hno⟩
  · exact Or.inl (hlinks hfirst)
  · obtain ⟨rfl, -⟩ := calleeLinks_eq_of_hasNoLink hcallee hno
    exact Or.inr ⟨hupdate, hcovered⟩

/-- What is read as a group is a first part with levels to spare. -/
theorem isFirst_of_grouped (h : Covered source depth 0 true e) : IsFirst source depth e c :=
  Or.inl (isOpenRun_of_keepsGroup (h.of_grouped _))

theorem isFirst_of_keepsGroup (h : Covered source depth 0 (e.keepsGroup source) e) :
    IsFirst source depth e c :=
  Or.inl (isOpenRun_of_keepsGroup h)

/-- A word has no levels but its own. -/
theorem isFirst_ofWord {span : Span} {word : String} :
    IsFirst source (depth + 1) (Leaf.ofWord span word) c := by
  have hdepth : 1 ≤ depth + 1 := Nat.le_add_left 1 depth
  refine isFirst_of_keepsGroup ?_
  unfold Leaf.ofWord
  split <;> exact covered_leaf hdepth rfl rfl

/-- A number. If a link follows it is not enclosed, as its group would have been read before. -/
theorem isFirst_number (hc : c.IsIn source.toList)
    (hstart : Pattern.numberStart.isAtStart c.rest = true) (h : Leaf.number c = .ok e c') :
    IsFirst source (depth + 1) e c' := by
  have hdepth : 1 ≤ depth + 1 := Nat.le_add_left 1 depth
  have hnot : ¬c'.HasNoLink → e.span.isEnclosed source = false :=
    Leaf.not_isEnclosed_number hc hstart h
  obtain ⟨_, _, -, -, -, rfl⟩ := Leaf.number_eq_ok hstart h
  refine Or.inl ⟨covered_leaf hdepth rfl rfl, fun hlink => ?_⟩
  rw [keepsGroup, hnot hlink, Bool.and_false]
  exact covered_leaf hdepth rfl rfl

/-- One more member access, in brackets. -/
theorem covered_memberLinks_computed {property : Expr} {access : Access} {stop : Nat}
    (hcomputed : access.computed = true) (hdepth : 1 ≤ depth)
    (hbefore : Covered source depth 0 (before.node.keepsGroup source) before.node)
    (hproperty : Covered source depth 3 false property) :
    Covered source depth 0 ((memberLinks before property access stop).node.keepsGroup source)
      (memberLinks before property access stop).node := by
  obtain ⟨optional, computed⟩ := access
  obtain rfl : computed = true := hcomputed
  exact covered_computed hdepth hbefore.of_keepsGroup hproperty

/-- One more member access, by name. -/
theorem covered_memberLinks_named {property : Expr} {access : Access} {stop : Nat}
    (hcomputed : access.computed = false) (hdepth : 1 ≤ depth)
    (hbefore : Covered source depth 0 (before.node.keepsGroup source) before.node)
    (hname : Leaf.propertyName c = .ok property c') :
    Covered source depth 0 ((memberLinks before property access stop).node.keepsGroup source)
      (memberLinks before property access stop).node := by
  obtain ⟨optional, computed⟩ := access
  obtain rfl : computed = false := hcomputed
  obtain ⟨-, rfl, -⟩ := Leaf.propertyName_eq_ok.1 hname
  exact covered_named hdepth hbefore (covered_leaf hdepth rfl rfl)

theorem not_hasNoLink_of_access {access : Access}
    (h : Token.access? c.pastBlanks.rest = some access) : ¬c.HasNoLink := by
  intro hno
  rw [hno.access] at h
  cases h

theorem not_hasNoLink_of_paren (h : c.pastBlanks.rest.head? = some '(') : ¬c.HasNoLink :=
  fun hno => hno.paren h

/-! ## By induction on derivations -/

/-- Whatever is read, the kept levels of its text have been opened for it. -/
theorem Derives.opened {depth : Nat} {p : Production} {c c' : Cursor} {v : p.Yield}
    (h : Derives depth p c v c') (hc : c.IsIn source.toList) : Opened source depth p c v c' := by
  induction h with
  | ungrouped hes ih => exact covered_sequenceNode? hes.leastDepth_le (ih hc.pastBlanks)
  | grouped _ hes _ _ ih =>
    exact covered_sequenceNode? hes.leastDepth_le (ih (hc.pastBlanks.skip 1))
  | @lastExpression _ _ _ e? _ _ _ _ ih => exact fun e he => ih hc e (Option.mem_toList.1 he)
  | moreExpressions hderives _ _ ihe ihes =>
    exact List.forall_mem_cons.2 ⟨ihe hc _ rfl, ihes ((hderives.isIn hc).pastBlanks.skip 1)⟩
  | expression _ ih => exact fun e he => (ih hc e he).succ
  | @unconditional depth _ _ operands? hoperands _ ih =>
    intro e he
    obtain ⟨x, hx, rfl⟩ := Option.map_eq_some_iff.1 he
    -- Operands are read two levels below, and `Opened` tells of them what is left there.
    have hleast : 3 ≤ depth := hoperands.leastDepth_le
    obtain ⟨below, rfl⟩ := Nat.exists_eq_add_of_le' (Nat.le_trans (by decide : 2 ≤ 3) hleast)
    exact ((ih hc x hx below rfl).covered (by decide) (by decide)).succ.succ
  | @conditional depth _ _ _ _ test _ _ hoperands _ hderives _ _ ihtest ihconsequent ihalternate =>
    rintro _ ⟨⟩
    have hc₁ := (hoperands.isIn hc).pastBlanks.skip 1
    have hc₂ := (hderives.isIn hc₁).pastBlanks.skip 1
    have hleast : 3 ≤ depth := hoperands.leastDepth_le
    obtain ⟨below, rfl⟩ := Nat.exists_eq_add_of_le' (Nat.le_trans (by decide : 2 ≤ 3) hleast)
    have htest : Covered source below 0 (test.expr.isGroupedAt (Level.conditional + 1)) test.expr :=
      (ihtest hc test rfl below rfl).covered (by decide) (by decide)
    exact covered_conditional hleast htest.succ.succ (ihconsequent hc₁ _ rfl)
      (ihalternate hc₂ _ rfl)
  | operands _ ih => exact fun x hx below hbelow => ih hc x hx below (Nat.succ.inj hbelow)
  | noOperand => exact nofun
  | @climb depth c c₁ c' least left climbed hleft hinfixes ihleft ih =>
    rintro _ ⟨⟩ below rfl
    -- The left operand is handed on with its two cases: in a group, or before an operator at the
    -- cursor.
    have hleast : 2 ≤ below + 1 := hleft.leastDepth_le
    refine ih (hleft.isIn hc.pastBlanks) below rfl (by omega) ?_
    rcases ihleft hc.pastBlanks left rfl below rfl with hgrouped | ⟨hcovered, hlevel, hunary⟩
    · exact Or.inl hgrouped
    · rw [c.pastBlanks_pastBlanks] at hunary
      exact Or.inr ((standsLeft_of_level hlevel hunary).isLeft hcovered)
  | @noInfix _ c least left isBareUnary hless =>
    intro below _ _ hleft
    rcases hleft with hgrouped | hleft
    · exact Or.inl hgrouped
    · exact Or.inr hleft.toIsBare
  | @joined _ c c₁ c' least left right climbed isBareUnary operator hoperator hleast hexp hright
      hallows _ ihright ih =>
    rintro below rfl hbelow hleft
    have hc₁ := hc.pastBlanks.skip operator.text.length
    have hdepth : 3 ≤ below + 1 := hright.leastDepth_le
    -- The right operand is read one level below the left one.
    obtain ⟨under, rfl⟩ := Nat.exists_eq_add_of_le' hbelow
    have hcovered := covered_join hbelow
      (IsLeft.before hleft hoperator hexp fun logical hlogical => (hallows logical hlogical).1)
      ((ihright hc₁ right rfl under rfl).after fun logical hlogical =>
        (hallows logical hlogical).2).succ
    exact ih (hright.isIn hc₁) (under + 1) rfl hbelow
      (Or.inr ((standsLeft_join hleast hright.stops).isLeft hcovered))
  | unary _ ih => exact fun e he below hbelow => Nat.succ.inj hbelow ▸ ih hc e he
  | @unaryOperator depth c c' operator argument hoperator hargument ih =>
    rintro _ ⟨⟩
    have hleast : 2 ≤ depth := hargument.leastDepth_le
    obtain ⟨below, rfl⟩ := Nat.exists_eq_add_of_le' (Nat.le_trans (by decide : 1 ≤ 2) hleast)
    -- In a group the operand has levels for its parentheses, and without one it needs none.
    have hcovered : Covered source below 0 (argument.isGroupedAt Level.unary) argument := by
      rcases ih (hc.pastBlanks.skip _) argument rfl below rfl with hgrouped | ⟨hcovered, hlevel, -⟩
      · exact hgrouped.of_grouped _
      · exact hcovered.of_level hlevel
    refine Or.inr ⟨covered_unary (by omega) hcovered.succ, Nat.le_refl _, fun _ => ?_⟩
    rw [hoperator]
    rfl
  | noUnaryOperator _ _ ih =>
    intro e he
    rcases ih hc.pastBlanks e he with hgrouped | ⟨hcovered, hlevel, hunary⟩
    · exact Or.inl hgrouped
    · refine Or.inr ⟨hcovered, hlevel, fun h => ?_⟩
      rw [hunary] at h
      cases h
  | noToken => exact nofun
  | token hprimary hrun _ ihprimary ihrun =>
    rintro _ ⟨⟩
    have hc₁ := hprimary.isIn hc.pastBlanks
    have hdepth := hprimary.leastDepth_le
    exact (ihprimary hc.pastBlanks _ rfl).1.token hrun hdepth (ihrun hc₁ hdepth)
  | trailingUpdate hprimary hrun _ hplace ihprimary ihrun =>
    rintro _ ⟨⟩
    have hc₁ := hprimary.isIn hc.pastBlanks
    have hdepth := hprimary.leastDepth_le
    have hwhole := (ihprimary hc.pastBlanks _ rfl).1.token hrun hdepth (ihrun hc₁ hdepth)
    have hlevel : Level.unary ≤ Level.trailingUpdate := by decide
    exact Or.inr ⟨covered_update hdepth hwhole.covered, hlevel, rfl⟩
  | noLink => exact fun _ h => h
  | @linkAccess _ c _ _ _ _ _ access haccess hmember _ ihbetween ih =>
    intro hdepth h
    have hc₁ := hc.pastBlanks.skip access.text.length
    -- A link follows here, so the run has the levels of the parentheses around digits.
    have hbetween := ihbetween hc₁ hdepth (h.linked (not_hasNoLink_of_access haccess))
    exact ih (hmember.isIn hc₁) hdepth (isOpenRun_of_keepsGroup hbetween)
  | linkCall _ hparen hcall _ ihbetween ih =>
    intro hdepth h
    have hc₁ := hc.pastBlanks.skip 1
    have hbetween := ihbetween hc₁ hdepth (h.linked (not_hasNoLink_of_paren hparen))
    exact ih (hcall.isIn hc₁) hdepth (isOpenRun_of_keepsGroup hbetween)
  | member _ ih => exact ih hc
  | computedLast hcomputed _ _ _ ih =>
    exact fun hdepth h => covered_memberLinks_computed hcomputed hdepth h (ih hc _ rfl)
  | computedNext hcomputed hproperty _ _ _ ihproperty ih =>
    have hc₁ := (hproperty.isIn hc).pastBlanks.skip 1
    exact fun hdepth h => ih (hc₁.pastBlanks.skip _) hdepth
      (covered_memberLinks_computed hcomputed hdepth h (ihproperty hc _ rfl))
  | namedLast hcomputed _ hname _ =>
    exact fun hdepth h => covered_memberLinks_named hcomputed hdepth h hname
  | namedNext hcomputed _ hname _ _ ih =>
    have hc₁ := hc.pastBlanks.of_reaches (Leaf.reaches_propertyName hname)
    exact fun hdepth h => ih (hc₁.pastBlanks.skip _) hdepth
      (covered_memberLinks_named hcomputed hdepth h hname)
  | accessedCall _ _ _ ih => exact ih (hc.pastBlanks.skip 1)
  | callLast hes _ ih =>
    exact fun _ h => covered_call hes.leastDepth_le h.of_keepsGroup (ih hc)
  | callNext hes _ _ ihes ih =>
    have hc₁ := hes.isIn hc
    exact fun hdepth h => ih (hc₁.pastBlanks.skip _) hdepth
      (covered_call hes.leastDepth_le h.of_keepsGroup (ihes hc))
  | arguments _ _ ih => exact ih hc
  | lastArgument _ _ ih => exact fun e he => ih hc e (Option.mem_toList.1 he)
  | moreArguments hderives _ _ ihe ihes =>
    exact List.forall_mem_cons.2 ⟨ihe hc _ rfl, ihes ((hderives.isIn hc).pastBlanks.skip 1)⟩
  | primary _ ih => exact ih hc
  | group _ _ ih =>
    intro e he
    -- A group is where the source has parentheses, and they are more than the text needs.
    have hgrouped := (ih hc e he).of_sequence
    exact ⟨isFirst_of_grouped hgrouped, fun _ => hgrouped⟩
  | leadingUpdate hop hupdated ih =>
    rintro _ ⟨⟩
    obtain ⟨hupdate, hcovered⟩ := ih (hc.skip _)
    exact ⟨Or.inr ⟨hupdate, hcovered, hupdated.stops⟩,
      fun hopen => absurd hopen (Token.head?_ne_open_of_updateOperator? hop)⟩
  | new hword _ ih =>
    rintro _ ⟨⟩
    have hcovered := ih (hc.skip _) (Cursor.isBehindSolid_new hc hword)
    exact ⟨isFirst_of_keepsGroup hcovered,
      fun hopen => absurd hopen (Text.head?_ne_of_leadingWord hword (by decide) (by decide))⟩
  | word hword hne =>
    rintro _ ⟨⟩
    exact ⟨isFirst_ofWord,
      fun hopen => absurd hopen (Text.head?_ne_of_leadingWord hword hne (by decide))⟩
  | number hstart hnumber =>
    rintro _ ⟨⟩
    exact ⟨isFirst_number hc hstart hnumber,
      fun hopen => absurd hopen (Text.head?_ne_open_of_numberStart hstart)⟩
  | arrayLiteral hbracket _ ih =>
    rintro _ ⟨⟩
    exact ⟨isFirst_of_keepsGroup (ih (hc.skip 1)), fun hopen => by cases hbracket.symm.trans hopen⟩
  | noPrimary => exact nofun
  | construct hprimary hcallee _ _ ihprimary ihcallee =>
    intro hbehind
    obtain ⟨hfirst, hopened⟩ := ihprimary hc.pastBlanks _ rfl
    obtain ⟨hlinks, hwritten, hes⟩ := ihcallee (hprimary.isIn hc.pastBlanks)
    -- Three things are asked of a `new`: that the callee is covered as a run is, that it is so in
    -- parentheses if the source has it in some, and that levels for the argument list have been
    -- opened unless that list is gained.
    have hdepth := hprimary.leastDepth_le
    refine covered_new (hfirst.callee hcallee (hlinks hdepth)) ?_ ?_ hes
    · intro henclosed
      obtain ⟨hnode, hopen⟩ := hprimary.callee_of_isEnclosed hcallee hbehind henclosed
      rw [hnode]
      exact hopened hopen
    · rcases hwritten with hleast | ⟨hstop, hnil⟩
      · exact Or.inl hleast
      · exact Or.inr ⟨hnil, by rw [hstop]; rfl⟩
  | noCalleeLink => exact ⟨fun _ h => h.covered, Or.inr ⟨rfl, rfl⟩, nofun⟩
  | @calleeAccess _ c _ _ _ _ access _ haccess hmember _ ihbetween ih =>
    have hc₁ := hc.pastBlanks.skip access.text.length
    obtain ⟨hlinks, hrest⟩ := ih (hmember.isIn hc₁)
    refine ⟨fun hdepth h => ?_, hrest⟩
    have hbetween := ihbetween hc₁ hdepth (h.linked (not_hasNoLink_of_access haccess))
    exact hlinks hdepth (isOpenRun_of_keepsGroup hbetween)
  | calleeArguments _ _ hes ih =>
    exact ⟨fun _ h => h.covered, Or.inl hes.leastDepth_le, ih (hc.pastBlanks.skip 1)⟩
  | updated hargument hplace ih =>
    exact ⟨rfl, covered_update hargument.leastDepth_le (ih hc _ rfl).covered⟩
  | array helements _ ih => exact covered_array helements.leastDepth_le (ih hc)
  | lastElement _ _ ih =>
    intro e he
    obtain ⟨e', he', hsome⟩ := List.mem_map.1 he
    cases hsome
    exact ih hc e (Option.mem_toList.1 he')
  | moreElements hderives _ _ ihe ih =>
    intro e he
    rcases List.mem_cons.1 he with hfirst | hrest
    · exact ihe hc e hfirst.symm
    · exact ih ((hderives.isIn hc).pastBlanks.skip 1) e hrest

end Grammar

namespace Expr

variable {e : Expr} {limits wide : Limits} {source text : String}

/-- What has been read within some depth is written as a text that is read as the same tree within
any depth that is no smaller, if no `new` is misread and, where the text gains brackets, the depth
suffices for the ways down the tree that meet them. -/
theorem parseWithin_toSource_gained (h : parseWithin limits source = .ok e)
    (htext : e.toSource = .ok text) (hread : ∀ n ∈ e.nodes, n.isMisread = false)
    (hlength : wide.exceeded? text = none) (hdepth : limits.maxDepth ≤ wide.maxDepth)
    (hgained : (∃ n ∈ e.nodes, n.gainsBrackets source = true) →
      3 + e.gainedLevels source ≤ wide.maxDepth) :
    ∃ e', parseWithin wide text = .ok e' ∧ e'.SameAs e := by
  have hoperand := (reads_of_parseWithin_eq_ok h).isOperand
  obtain rfl := text_of_toSource hoperand.allFit htext
  obtain ⟨e', hreads, hsame⟩ := readsWithin_text hoperand.allFit hoperand.isFree hread
  obtain ⟨c', hderives, -⟩ := readsWithin_of_parseWithin_eq_ok h
  have hkept : 3 + 0 + e.keptLevels source ≤ limits.maxDepth :=
    hderives.opened (Cursor.isIn_ofString source) e rfl
  have hlevels : e.levels ≤ max (e.keptLevels source) (e.gainedLevels source) := levels_le source e
  have hfits : e.levels + 3 ≤ wide.maxDepth := by
    by_cases hgains : ∃ n ∈ e.nodes, n.gainsBrackets source = true
    · have hwide := hgained hgains
      omega
    · have hnone : e.gainedLevels source = 0 := gainedLevels_eq_zero_iff.2 fun n hn =>
        Bool.eq_false_iff.2 fun hn' => hgains ⟨n, hn, hn'⟩
      omega
  exact ⟨e', parseWithin_eq_ok_of_readsWithin hreads hlength hfits, hsame⟩

/-- `[new (f(x))(), new a]` needs 16 levels for the argument of `f`. Its text gains an argument
list, but has the parentheses around `f(x)` from the source, and needs no more. -/
theorem parseWithin_toSource_gained_new :
    ∃ e, parseWithin ⟨none, 16⟩ "[new (f(x))(), new a]" = .ok e ∧
      e.toSource = .ok "[new (f(x))(), new a()]" ∧ (∀ n ∈ e.nodes, n.isMisread = false) ∧
      (⟨none, 16⟩ : Limits).exceeded? "[new (f(x))(), new a()]" = none ∧
      (∃ n ∈ e.nodes, n.gainsBrackets "[new (f(x))(), new a]" = true) ∧
      3 + e.gainedLevels "[new (f(x))(), new a]" ≤ 16 ∧
      ∃ e', parseWithin ⟨none, 16⟩ "[new (f(x))(), new a()]" = .ok e' ∧ e'.SameAs e := by
  have hcheck : (parseWithin ⟨none, 16⟩ "[new (f(x))(), new a]").toOption.any (fun e =>
      e.toSource.toOption == some "[new (f(x))(), new a()]" &&
        e.nodes.all (fun n => !n.isMisread) &&
        e.nodes.any (fun n => n.gainsBrackets "[new (f(x))(), new a]") &&
        decide (3 + e.gainedLevels "[new (f(x))(), new a]" ≤ 16)) = true := by
    decide +kernel
  obtain ⟨e, hparse, hcheck⟩ := exists_of_any_toOption hcheck
  simp only [Bool.and_eq_true, beq_iff_eq, decide_eq_true_eq] at hcheck
  obtain ⟨⟨⟨htext, hread⟩, hgains⟩, hgained⟩ := hcheck
  have htext := eq_ok_of_toOption htext
  have hread : ∀ n ∈ e.nodes, n.isMisread = false := fun n hn => by
    simpa using List.all_eq_true.1 hread n hn
  exact ⟨e, hparse, htext, hread, rfl, List.any_eq_true.1 hgains, hgained,
    parseWithin_toSource_gained hparse htext hread rfl (Nat.le_refl 16) fun _ => hgained⟩

/-- Without more levels the text of `new a` is not read. -/
theorem not_parseWithin_toSource_new : ∃ e error, parseWithin ⟨none, 5⟩ "new a" = .ok e ∧
    e.toSource = .ok "new a()" ∧ parseWithin ⟨none, 5⟩ "new a()" = .error error ∧
    error.message = "expression nested too deeply" := by
  have hcheck : (match parseWithin ⟨none, 5⟩ "new a", parseWithin ⟨none, 5⟩ "new a()" with
      | .ok e, .error error => e.toSource.toOption == some "new a()" &&
          error.message == "expression nested too deeply"
      | _, _ => false) = true := by
    decide +kernel
  split at hcheck
  next e error hparse hfails =>
    obtain ⟨htext, hmessage⟩ := Bool.and_eq_true_iff.1 hcheck
    exact ⟨e, error, hparse, eq_ok_of_toOption (eq_of_beq htext), hfails, eq_of_beq hmessage⟩
  next => cases hcheck

end Expr

end Estree
