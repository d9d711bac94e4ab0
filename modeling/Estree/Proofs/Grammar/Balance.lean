import Estree.Proofs.Grammar.Payments

/-!
# No text of a tree costs less than what is due

Whatever is read, the text that is passed costs at least what is due for the tree: a text can be
written in many ways, and `Expr.due` is the cost of the one with the fewest parentheses. This is the
side of the reader; that the written text costs no more is shown with the trees.

> `Balanced`: what each production has paid for its yield. The cost of what it passes is the cost of
> what was left before it less the cost of what is left behind it.
> `Derives.balanced`: every derivation is balanced.
> `due_le_balance`: a text that is read as a tree costs at least what is due for the tree.

`Derives.balanced` is an induction on derivations, with one case for each production. The cases are
of three kinds:

* a list or a bracket adds up what its parts have paid, and its own characters are free or are the
  toll of a parenthesis;
* an operand has paid either for parentheses around it or for none, and in the second case its
  operators bind as tightly as the place demands;
* a link takes what the run before it has paid (`paid`) and adds its own cost, so the statement for
  links is about every amount that may have been paid before.

The third kind carries two accounts, as the run may turn out to be the callee of a `new`. Where a
point is at hand behind a run, the run may have paid less by the `slack`, as the point will be
charged in full by the access that it belongs to.
-/

open Estree.Expr

namespace Estree

open Text

namespace Grammar

variable {depth : Nat} {c c₁ c' : Cursor} {e : Expr} {es : List Expr} {spent : Int}

/-! ## Yields that may be absent -/

section Yields

variable {α : Type} {absent : Prop} {present : α → Prop}

/-- What holds of an absent yield and of a present one, of one that is present. -/
theorem balanced_some {a : α} (h : present a) :
    (some a = none → absent) ∧ ∀ x ∈ some a, present x :=
  ⟨fun hnone => absurd hnone (Option.some_ne_none a), fun _ hx => Option.some.inj hx ▸ h⟩

/-- An absent yield only has to pay nothing. -/
theorem balanced_none (h : absent) : ((none : Option α) = none → absent) ∧ ∀ x ∈ none, present x :=
  ⟨fun _ => h, fun x hx => absurd hx (Option.not_mem_none x)⟩

end Yields

/-! ## By induction on derivations -/

/-- What the text costs that a production passes is what is due for its yield. -/
def Balanced : (p : Production) → Cursor → p.Yield → Cursor → Prop
  | .sequence isGrouped, c, e?, c' =>
    (isGrouped = true → e? ≠ none) ∧
      ∀ e ∈ e?, Pays (c.balance - c'.balance) (isGrouped && !e.bareDigits?.isSome) e
  | .expression, c, e?, c' | .conditional, c, e?, c' =>
    (e? = none → c'.balance = c.balance) ∧
      ∀ e ∈ e?, Pays (c.balance - c'.balance) (e.isGroupedAt Level.conditional) e
  | .expressions _, c, es, c' | .argumentList, c, es, c' => dueOfList es ≤ c.balance - c'.balance
  | .arguments, c, es, c' =>
    argumentsToll es + dueOfList es ≤ openToll c.rest + c.balance - c'.balance
  | .elements, c, elements, c' => dueOfSlots elements ≤ c.balance - c'.balance
  | .operands least, c, x?, c' | .climb least, c, x?, c' =>
    (x? = none → c'.balance = c.balance) ∧ ∀ x ∈ x?, PaysJoined (c.balance - c'.balance) least x
  | .infixes least left isBareUnary, c, climbed, c' => ∀ paid,
    (PaysGroup paid left.expr ∨ left.expr.due ≤ paid ∧ StandsLeft least left isBareUnary c) →
      PaysJoined (paid + (c.balance - c'.balance)) least climbed
  | .unary, c, e?, c' | .unaryForm, c, e?, c' =>
    (e? = none → c'.balance = c.balance) ∧ ∀ e ∈ e?, PaysUnary (c.balance - c'.balance) c e
  | .token, c, e?, c' =>
    (e? = none → c'.balance = c.balance) ∧ ∀ e ∈ e?, PaysToken (c.balance - c'.balance) e
  | .primary, c, e?, c' | .primaryForm, c, e?, c' =>
    (e? = none → c'.balance = c.balance) ∧ ∀ e ∈ e?, PaysFirst (c.balance - c'.balance) e c'
  | .construct _, c, e, c' =>
    e.due ≤ c.balance - c'.balance ∧ e.isGroupedAfterNew = false
  | .array _, c, e, c' => e.due ≤ c.balance - c'.balance ∧ e.isGroupedAfterNew = false
  | .updated .., c, e, c' => e.due ≤ c.balance - c'.balance ∧ e.isLeadingUpdate = true
  | .links before, c, after, c' => ∀ paid,
    Pays (paid + slack before.node c) before.node.isGroupedBeforeLink before.node →
      Pays (paid + (c.balance - c'.balance)) after.node.isGroupedBeforeLink after.node
  | .member before access, c, after, c' | .accesses before access, c, after, c' => ∀ paid,
    (Pays paid before.node.isGroupedBeforeLink before.node →
      Pays (paid + (accessDue access before.node + (c.balance - c'.balance)))
        after.node.isGroupedBeforeLink after.node) ∧
    (Pays paid (isGroupedCallee before) before.node →
      Pays (paid + (accessDue access before.node + (c.balance - c'.balance)))
        (isGroupedCallee after) after.node)
  | .call before optional, c, after, c' => ∀ paid,
    (Pays paid before.node.isGroupedBeforeLink before.node →
      Pays (paid + (2 * optional.toNat + (openToll c.rest + c.balance - c'.balance)))
        after.node.isGroupedBeforeLink after.node) ∧
    (Pays paid (isGroupedCallee before) before.node →
      Pays (paid + (1 + optional.toNat + (openToll c.rest + c.balance - c'.balance)))
        (isGroupedCallee after) after.node)
  | .calleeLinks before, c, callee, c' => ∀ paid,
    Pays (paid + slack before.node c) (isGroupedCallee before) before.node →
      (isGroupedCallee callee.links).toNat + callee.links.node.due +
        (argumentsToll callee.arguments + dueOfList callee.arguments) ≤
          paid + (c.balance - c'.balance)

/-- What is due for a list is due for its first expression and the others. -/
theorem dueOfList_cons (e : Expr) (es : List Expr) :
    dueOfList (e :: es) = (e.isGroupedAt Level.conditional).toNat + e.due + dueOfList es := rfl

/-- At the end of a list there is one more expression, or none. -/
theorem dueOfList_toList_le {e? : Option Expr} (hnone : e? = none → c'.balance = c.balance)
    (hsome : ∀ e ∈ e?, Pays (c.balance - c'.balance) (e.isGroupedAt Level.conditional) e) :
    dueOfList e?.toList ≤ c.balance - c'.balance := by
  cases e? with
  | none =>
    rw [hnone rfl, Int.sub_self]
    exact Int.le_refl 0
  | some e =>
    have he : (e.isGroupedAt Level.conditional).toNat + e.due ≤ c.balance - c'.balance :=
      hsome e rfl
    show (e.isGroupedAt Level.conditional).toNat + e.due + 0 ≤ _
    omega

/-- Before a comma there is one more expression. -/
theorem dueOfList_cons_le (he : Pays (c.balance - c₁.balance) (e.isGroupedAt Level.conditional) e)
    (hcomma : c₁.pastBlanks.rest.head? = some ',')
    (hes : dueOfList es ≤ (c₁.pastBlanks.skip 1).balance - c'.balance) :
    dueOfList (e :: es) ≤ c.balance - c'.balance := by
  rw [Cursor.balance_pastBlanks_skip_one hcomma (by decide)] at hes
  unfold Pays at he
  rw [dueOfList_cons]
  omega

/-- The node of expressions is due what they are, or less. -/
theorem due_sequenceNode? {grouped? : Option Span} (h : e ∈ sequenceNode? grouped? es) :
    e.due ≤ dueOfList es := by
  rcases es with _ | ⟨first, _ | ⟨second, rest⟩⟩
  · cases h
  · cases h
    show e.due ≤ (e.isGroupedAt Level.conditional).toNat + e.due + 0
    omega
  · cases h
    exact Int.le_refl _

/-- What is due for two operands that an operator joins is due for each of them at its place. -/
theorem due_join (operator : InfixOperator) (left right : Expr) :
    (operator.join left right).due =
      (left.isGroupedBefore operator).toNat + left.due +
        ((right.isGroupedAfter operator).toNat + right.due) := by
  cases operator with
  | binary => rfl
  | logical => rfl

/-- Nothing is due for a word. -/
theorem due_ofWord (span : Span) (word : String) : (Leaf.ofWord span word).due = 0 := by
  unfold Leaf.ofWord
  split <;> rfl

/-- The text of a word is the word. -/
theorem text_ofWord (span : Span) (word : String) :
    (Leaf.ofWord span word).text = word.toList := by
  unfold Leaf.ofWord
  split <;> rfl

/-- The point after a word is at hand. -/
theorem joint_ofWord (span : Span) (word : List Char) :
    joint word c.rest ≤ slack (Leaf.ofWord span (String.ofList word)) c := by
  refine joint_le_slack ?_ ?_
  · unfold Leaf.ofWord
    split <;> rfl
  · rw [text_ofWord, String.toList_ofList]

/-- A word needs no parentheses as a callee. -/
theorem isGroupedAfterNew_ofWord (span : Span) (word : String) :
    (Leaf.ofWord span word).isGroupedAfterNew = false := by
  unfold Leaf.ofWord
  split <;> rfl

/-- A first part of a run that is in no parentheses as a callee. -/
theorem paysFirst_of_due (hgrouped : e.isGroupedAfterNew = false)
    (hdue : e.due ≤ spent + slack e c) : PaysFirst spent e c := by
  refine Or.inl ?_
  rw [hgrouped]
  exact pays_false.2 hdue

/-- What a production passes costs as much as is due for its yield. -/
theorem Derives.balanced {p : Production} {v : p.Yield} (h : Derives depth p c v c') :
    Balanced p c v c' := by
  induction h with
  | @ungrouped _ c c' es _ ih =>
    refine ⟨nofun, fun e he => ?_⟩
    have hes : dueOfList es ≤ c.pastBlanks.balance - c'.balance := ih
    rw [c.balance_pastBlanks] at hes
    exact pays_false.2 (Int.le_trans (due_sequenceNode? he) hes)
  | @grouped _ c c' es hopen hderives hclose hne ih =>
    refine ⟨fun _ => sequenceNode?_ne_none hne, fun e he => ?_⟩
    have hes : dueOfList es ≤ (c.pastBlanks.skip 1).balance - c'.balance := ih
    have hdue := due_sequenceNode? he
    have hskip : (c'.skip 1).balance = c'.balance :=
      Cursor.balance_skip_one hclose (by decide)
    have hc := Cursor.balance_open hopen
    unfold Pays
    -- A parenthesis has its toll but around digits, where it has none and the sequence counts as
    -- ungrouped.
    rcases openToll_expressions hderives hne with hone | ⟨hzero, e', rfl, hdigits⟩
    · have hgroup : (true && !e.bareDigits?.isSome).toNat ≤ 1 := Bool.toNat_le _
      omega
    · obtain rfl : e' = e := Option.some.inj he
      rw [hdigits]
      show (0 : Nat) + e'.due ≤ _
      omega
  | @lastExpression _ c c' e? _ _ _ _ ih =>
    have hlast := dueOfList_toList_le ih.1 ih.2
    show dueOfList e?.toList ≤ c.balance - c'.pastBlanks.balance
    rwa [c'.balance_pastBlanks]
  | moreExpressions _ hcomma _ ihe ihes => exact dueOfList_cons_le (ihe.2 _ rfl) hcomma ihes
  | expression _ ih => exact ih
  | @unconditional _ c c' operands? _ _ ih =>
    obtain ⟨hnone, hsome⟩ := ih
    refine ⟨fun h => ?_, fun e he => ?_⟩
    · rw [c'.balance_pastBlanks]
      exact hnone (Option.map_eq_none_iff.1 h)
    · obtain ⟨x, hx, rfl⟩ := Option.map_eq_some_iff.1 he
      rw [c'.balance_pastBlanks]
      exact (hsome x hx).pays (by decide) (by decide)
  | @conditional _ c c₁ c₂ c' test consequent alternate _ hquestion _ hcolon _ ihtest ihconsequent
      ihalternate =>
    -- `?` and `:` are free, so the three parts add up.
    refine balanced_some ?_
    have htest : (test.expr.isGroupedAt (Level.conditional + 1)).toNat + test.expr.due ≤
        c.balance - c₁.balance := (ihtest.2 test rfl).pays (by decide) (by decide)
    have hconsequent : (consequent.isGroupedAt Level.conditional).toNat + consequent.due ≤
        (c₁.pastBlanks.skip 1).balance - c₂.balance := ihconsequent.2 consequent rfl
    have halternate : (alternate.isGroupedAt Level.conditional).toNat + alternate.due ≤
        (c₂.pastBlanks.skip 1).balance - c'.balance := ihalternate.2 alternate rfl
    rw [Cursor.balance_pastBlanks_skip_one hquestion (by decide)] at hconsequent
    rw [Cursor.balance_pastBlanks_skip_one hcolon (by decide)] at halternate
    show (0 : Nat) + (_ + test.expr.due + (_ + consequent.due + (_ + alternate.due))) ≤ _
    omega
  | operands _ ih => exact ih
  | @noOperand _ c c' _ _ ih =>
    exact balanced_none ((ih.1 rfl).trans c.balance_pastBlanks)
  | @climb _ c c₁ c' least left climbed _ _ ihleft ih =>
    refine balanced_some ?_
    -- What the left operand has paid is the `paid` that its operators start from.
    have hleft : PaysUnary (c.pastBlanks.balance - c₁.balance) c.pastBlanks left :=
      ihleft.2 left rfl
    have hspent : c.pastBlanks.balance - c₁.balance + (c₁.balance - c'.balance) =
        c.balance - c'.balance := by
      rw [c.balance_pastBlanks]
      omega
    rw [← hspent]
    refine ih _ ?_
    rcases hleft with hgrouped | ⟨hdue, hlevel, hunary⟩
    · exact Or.inl hgrouped
    · rw [c.pastBlanks_pastBlanks] at hunary
      exact Or.inr ⟨hdue, standsLeft_of_level hlevel hunary⟩
  | @noInfix _ c least left _ _ =>
    intro paid hleft
    rw [c.balance_pastBlanks, Int.sub_self, Int.add_zero]
    rcases hleft with hgrouped | ⟨hdue, hleft⟩
    · exact Or.inl hgrouped
    · exact Or.inr ⟨hdue, hleft.toHasRoot⟩
  | @joined _ c c₁ c' least left right climbed isBareUnary operator hoperator hleast hexp hright
      hallows _ ihright ih =>
    intro paid hleft
    -- Both operands have paid for the parentheses that they have beside this operator, so joined
    -- they have paid for a left operand without any.
    obtain ⟨rest, hrest⟩ := Token.infixOperator?_eq_some hoperator
    have hskip : (c.pastBlanks.skip operator.text.length).balance = c.balance :=
      Cursor.balance_operator hrest (free_infixOperator operator)
    have hleftPays : (left.expr.isGroupedBefore operator).toNat + left.expr.due ≤ paid :=
      StandsLeft.pays hleft hoperator hexp fun logical hlogical => (hallows logical hlogical).1
    have hrightPays : (right.expr.isGroupedAfter operator).toNat + right.expr.due ≤
        (c.pastBlanks.skip operator.text.length).balance - c₁.balance :=
      (ihright.2 right rfl).after fun logical hlogical => (hallows logical hlogical).2
    have hdue : (operator.join left.expr right.expr).due ≤ paid + (c.balance - c₁.balance) := by
      rw [due_join]
      omega
    have hspent : paid + (c.balance - c₁.balance) + (c₁.balance - c'.balance) =
        paid + (c.balance - c'.balance) := by omega
    rw [← hspent]
    exact ih _ (Or.inr ⟨hdue, standsLeft_join hleast hright.stops⟩)
  | unary _ ih => exact ih
  | @unaryOperator _ c c' operator argument hoperator _ ih =>
    refine balanced_some ?_
    obtain ⟨rest, hrest⟩ := Token.unaryOperator?_eq_some hoperator
    have hskip : (c.pastBlanks.skip operator.text.length).balance = c.balance :=
      Cursor.balance_operator hrest (free_unaryOperator operator)
    have hargument : Pays ((c.pastBlanks.skip operator.text.length).balance - c'.balance)
        (argument.isGroupedAt Level.unary) argument := by
      -- An operand in a group has paid for one in any case; without a group it binds tightly enough
      -- to need none.
      rcases ih.2 argument rfl with hgrouped | ⟨hdue, hlevel, -⟩
      · exact hgrouped.pays fun h => isGroupedAt_of_bareDigits? h (by decide)
      · exact pays_of_level hdue hlevel
    rw [hskip] at hargument
    refine Or.inr ⟨hargument, Nat.le_refl _, fun _ => ?_⟩
    rw [hoperator]
    rfl
  | @noUnaryOperator _ c c' e? _ _ ih =>
    obtain ⟨hnone, hsome⟩ := ih
    rw [c.balance_pastBlanks] at hnone hsome
    refine ⟨hnone, fun e he => ?_⟩
    rcases hsome e he with hgrouped | ⟨hdue, hlevel, hunary⟩
    · exact Or.inl hgrouped
    · refine Or.inr ⟨hdue, hlevel, fun h => ?_⟩
      rw [hunary] at h
      cases h
  | @noToken _ c c' _ ih =>
    exact balanced_none ((ih.1 rfl).trans c.balance_pastBlanks)
  | @token _ c c₁ c' primary run _ hrun _ ihprimary ihrun =>
    refine balanced_some ?_
    have htoken := (ihprimary.2 primary rfl).token hrun (ihrun _)
    have hspent : c.pastBlanks.balance - c₁.balance + (c₁.balance - c'.balance) =
        c.balance - (c'.skipBlanks false).balance := by
      rw [c.balance_pastBlanks, c'.balance_skipBlanks]
      omega
    rwa [hspent] at htoken
  | @trailingUpdate _ c c₁ c' primary run operator _ hrun hoperator _ ihprimary ihrun =>
    refine balanced_some ?_
    have htoken := ((ihprimary.2 primary rfl).token hrun (ihrun _)).due_le
    obtain ⟨rest, hrest⟩ := Token.updateOperator?_eq_some hoperator
    have hskip : ((c'.skipBlanks false).skip operator.text.length).balance =
        (c'.skipBlanks false).balance :=
      Cursor.balance_skip_free hrest (free_updateOperator operator)
    rw [c.balance_pastBlanks] at htoken
    rw [c'.balance_skipBlanks] at hskip
    -- Parentheses around the place are not written, and what was paid for them is given up.
    refine Or.inr ⟨?_, show Level.unary ≤ Level.trailingUpdate by decide, rfl⟩
    show run.finish.due ≤ _
    omega
  | noLink hno _ =>
    intro paid hbefore
    rw [slack_of_access?_eq_none hno] at hbefore
    rwa [Int.sub_self]
  | @linkAccess _ c c₁ c' before between after access haccess _ _ ihbetween ih =>
    intro paid hbefore
    have hbetween := (ihbetween _).1 hbefore
    have hslack := slack_nonneg between.node c₁
    have hc := Cursor.balance_access haccess
    -- What the run before was short of because of its point, the access is charged less.
    have hpoint := slack_add_accessDue_le (e := before.node) haccess
    refine (ih _ (hbetween.of_le (Int.le_add_of_nonneg_right hslack))).of_le ?_
    omega
  | @linkCall _ c c₁ c' before between after hno hopen _ _ ihbetween ih =>
    intro paid hbefore
    have hbetween := (ihbetween _).1 hbefore
    have hslack := slack_nonneg between.node c₁
    have hc := Cursor.balance_open hopen
    have hpoint := slack_of_access?_eq_none (e := before.node) hno
    refine (ih _ (hbetween.of_le (Int.le_add_of_nonneg_right hslack))).of_le ?_
    rw [Bool.toNat_false]
    omega
  | member _ ih => exact ih
  | @computedLast _ c c' before access property _ _ hclose _ ih =>
    have hproperty : property.due ≤ c.balance - c'.balance := pays_false.1 (ih.2 property rfl)
    intro paid
    rw [Cursor.balance_pastBlanks_skip_one hclose (by decide)]
    exact pays_memberLinks hproperty
  | @computedNext _ c c₁ c' before after access next property _ _ hclose hnext _ ihproperty ih =>
    have hproperty : property.due ≤ c.balance - c₁.balance :=
      pays_false.1 (ihproperty.2 property rfl)
    have hbracket : (c₁.pastBlanks.skip 1).balance = c₁.balance :=
      Cursor.balance_pastBlanks_skip_one hclose (by decide)
    have hc := Cursor.balance_access hnext
    have hpoint := accessDue_le next
      (memberLinks before property access (c₁.pastBlanks.skip 1).position).node
    -- Both accounts go on, that of a run and that of the callee of a `new`.
    intro paid
    obtain ⟨hlink, hcallee⟩ := pays_memberLinks hproperty
    refine ⟨fun hbefore => ((ih _).1 (hlink hbefore)).of_le ?_,
      fun hbefore => ((ih _).2 (hcallee hbefore)).of_le ?_⟩
    · omega
    · omega
  | @namedLast _ c c' before access property hcomputed _ hname hno =>
    have hproperty := balance_propertyName hname before hcomputed property.span.stop
    rw [slack_of_access?_eq_none hno, Int.add_zero] at hproperty
    exact fun paid => pays_memberLinks hproperty
  | @namedNext _ c c₁ c' before after access next property hcomputed _ hname hnext _ ih =>
    have hproperty := balance_propertyName hname before hcomputed property.span.stop
    have hc := Cursor.balance_access hnext
    have hpoint := slack_add_accessDue_le
      (e := (memberLinks before property access property.span.stop).node) hnext
    intro paid
    obtain ⟨hlink, hcallee⟩ := pays_memberLinks hproperty
    refine ⟨fun hbefore => ((ih _).1 (hlink hbefore)).of_le ?_,
      fun hbefore => ((ih _).2 (hcallee hbefore)).of_le ?_⟩
    · omega
    · omega
  | @accessedCall _ c c' before after access hcomputed hopen _ ih =>
    intro paid
    have hc := Cursor.balance_open hopen
    have hpoint := le_accessDue hcomputed before.node
    have hoptional : access.optional.toNat ≤ 1 := Bool.toNat_le _
    obtain ⟨hlink, hcallee⟩ := ih paid
    refine ⟨fun hbefore => (hlink hbefore).of_le ?_, fun hbefore => (hcallee ?_).of_le ?_⟩
    · omega
    -- An optional access can only take the parentheses of a callee away.
    · refine hbefore.weaken fun hnone => ?_
      obtain ⟨hgrouped, hcall⟩ := Bool.or_eq_false_iff.1 hnone
      rw [isGroupedCallee, hgrouped, Bool.false_or]
      cases hbefore : before.hasOptional with
      | true => rfl
      | false =>
        rw [hbefore, Bool.not_false, Bool.true_and] at hcall
        rw [hcall, Bool.and_false]
    · omega
  | @callLast _ c c' before optional es _ _ ih =>
    have hes : argumentsToll es + dueOfList es ≤ openToll c.rest + c.balance - c'.balance := ih
    exact fun paid => pays_callLinks hes
  | @callNext _ c c₁ c' before after optional next es _ hnext _ ihes ih =>
    have hes : argumentsToll es + dueOfList es ≤ openToll c.rest + c.balance - c₁.balance := ihes
    have hc := Cursor.balance_access hnext
    have hpoint := accessDue_le next (callLinks before es optional c₁.position).node
    intro paid
    obtain ⟨hlink, hcallee⟩ := pays_callLinks hes
    refine ⟨fun hbefore => ((ih _).1 (hlink hbefore)).of_le ?_,
      fun hbefore => ((ih _).2 (hcallee hbefore)).of_le ?_⟩
    · omega
    · omega
  | @arguments _ c c' es hderives hclose ih =>
    have hes : dueOfList es ≤ c.balance - c'.balance := ih
    have htoll := argumentsToll_le hderives hclose
    have hskip : (c'.skip 1).balance = c'.balance :=
      Cursor.balance_skip_one hclose (by decide)
    show argumentsToll es + dueOfList es ≤ openToll c.rest + c.balance - (c'.skip 1).balance
    omega
  | @lastArgument _ c c' e? _ _ ih =>
    have hlast := dueOfList_toList_le ih.1 ih.2
    show dueOfList e?.toList ≤ c.balance - c'.pastBlanks.balance
    rwa [c'.balance_pastBlanks]
  | moreArguments _ hcomma _ ihe ihes => exact dueOfList_cons_le (ihe.2 _ rfl) hcomma ihes
  | primary _ ih => exact ih
  | @group _ c c' e? _ _ ih =>
    refine ⟨fun hnone => absurd hnone (ih.1 rfl), fun e he => Or.inl ?_⟩
    -- A group may be put anywhere in a run, as its parentheses have been paid for.
    have hgroup : PaysGroup (c.balance - c'.balance) e := ih.2 e he
    exact (hgroup.pays isGroupedAfterNew_of_bareDigits?).of_le
      (Int.le_add_of_nonneg_right (slack_nonneg e c'))
  | @leadingUpdate _ c c' operator e hoperator hupdated ih =>
    refine balanced_some ?_
    obtain ⟨hdue, hleading⟩ := ih
    obtain ⟨rest, hrest⟩ := Token.updateOperator?_eq_some hoperator
    have hskip : (c.skip operator.text.length).balance = c.balance :=
      Cursor.balance_skip_free hrest (free_updateOperator operator)
    rw [hskip] at hdue
    exact Or.inr ⟨hleading, hdue, hupdated.stops⟩
  | @new _ c c' e hword _ ih =>
    refine balanced_some ?_
    obtain ⟨hdue, hgrouped⟩ := ih
    have hskip : (c.skip "new".toList.length).balance = c.balance :=
      (Cursor.balance_word hword).symm.trans (Int.add_zero _)
    rw [hskip] at hdue
    exact paysFirst_of_due hgrouped
      (Int.le_trans hdue (Int.le_add_of_nonneg_right (slack_nonneg e c')))
  | @word _ c word hword _ _ =>
    refine balanced_some ?_
    have hcost := Cursor.balance_word hword
    have hjoint := joint_ofWord ⟨c.position, c.position + utf8Size word⟩ word
      (c := c.skip word.length)
    refine paysFirst_of_due (isGroupedAfterNew_ofWord _ _) ?_
    rw [due_ofWord]
    omega
  | @number _ c c' e hstart hnumber =>
    refine balanced_some ?_
    obtain ⟨hdue, hgrouped⟩ := balance_number hstart hnumber
    exact paysFirst_of_due hgrouped hdue
  | @arrayLiteral _ c c' e hopen _ ih =>
    refine balanced_some ?_
    obtain ⟨hdue, hgrouped⟩ := ih
    rw [Cursor.balance_skip_one hopen (by decide)] at hdue
    exact paysFirst_of_due hgrouped
      (Int.le_trans hdue (Int.le_add_of_nonneg_right (slack_nonneg e c')))
  | noPrimary => exact balanced_none rfl
  | @construct _ c c₁ c' start primary callee _ hderives hoptional _ ihprimary ihcallee =>
    have hfirst : PaysFirst (c.pastBlanks.balance - c₁.balance) primary c₁ :=
      ihprimary.2 primary rfl
    rw [c.balance_pastBlanks] at hfirst
    refine ⟨?_, rfl⟩
    show callee.links.node.isGroupedAfterNew.toNat + callee.links.node.due +
      (argumentsToll callee.arguments + dueOfList callee.arguments) ≤ c.balance - c'.balance
    -- The first part is one that links go on from, or an update, behind which there are none.
    rcases hfirst with hfirst | ⟨-, hdue, hno⟩
    · have hprimary : isGroupedCallee ⟨primary, false⟩ = primary.isGroupedAfterNew :=
        isGroupedCallee_eq rfl
      rw [← hprimary] at hfirst
      have hcallee := ihcallee _ hfirst
      rw [isGroupedCallee_eq hoptional] at hcallee
      omega
    · obtain ⟨rfl, rfl⟩ := calleeLinks_eq_of_hasNoLink hderives hno
      have hgroup : primary.isGroupedAfterNew.toNat ≤ 1 := Bool.toNat_le _
      show primary.isGroupedAfterNew.toNat + primary.due + (-1 + 0) ≤ _
      omega
  | @noCalleeLink _ c before hno _ =>
    intro paid hbefore
    have hpoint := slack_of_access?_eq_none (e := before.node) hno
    unfold Pays at hbefore
    show (isGroupedCallee before).toNat + before.node.due + (-1 + 0) ≤ _
    omega
  | @calleeAccess _ c c₁ c' before between access callee haccess _ _ ihbetween ih =>
    intro paid hbefore
    have hbetween := (ihbetween _).2 hbefore
    have hslack := slack_nonneg between.node c₁
    have hcallee := ih _ (hbetween.of_le (Int.le_add_of_nonneg_right hslack))
    have hc := Cursor.balance_access haccess
    have hpoint := slack_add_accessDue_le (e := before.node) haccess
    omega
  | @calleeArguments _ c c' before es hno hopen _ ih =>
    intro paid hbefore
    have hes : argumentsToll es + dueOfList es ≤
      openToll (c.pastBlanks.skip 1).rest + (c.pastBlanks.skip 1).balance - c'.balance := ih
    have hc := Cursor.balance_open hopen
    have hpoint := slack_of_access?_eq_none (e := before.node) hno
    unfold Pays at hbefore
    dsimp only
    omega
  | @updated _ c c' operator _ argument _ _ ih =>
    exact ⟨(ih.2 argument rfl).due_le, rfl⟩
  | @array _ c c' _ elements _ hclose ih =>
    have helements : dueOfSlots elements ≤ c.balance - c'.balance := ih
    rw [← Cursor.balance_skip_one hclose (by decide)] at helements
    exact ⟨helements, rfl⟩
  | @lastElement _ c c' e? _ _ ih =>
    have hlast := dueOfList_toList_le ih.1 ih.2
    -- A hole is due nothing, so elements are paid for as expressions are.
    have hslots : dueOfSlots (e?.toList.map some) = dueOfList e?.toList := by
      cases e? <;> rfl
    show dueOfSlots (e?.toList.map some) ≤ c.balance - c'.pastBlanks.balance
    rwa [c'.balance_pastBlanks, hslots]
  | @moreElements _ c c₁ c' e? elements _ hcomma _ ihe ih =>
    have he := dueOfList_toList_le ihe.1 ihe.2
    have helements : dueOfSlots elements ≤ (c₁.pastBlanks.skip 1).balance - c'.balance := ih
    rw [Cursor.balance_pastBlanks_skip_one hcomma (by decide)] at helements
    have hcons : dueOfSlots (e? :: elements) = dueOfList e?.toList + dueOfSlots elements := by
      cases e? with
      | none => exact (Int.zero_add _).symm
      | some e =>
        show _ + dueOfSlots elements = _ + 0 + dueOfSlots elements
        rw [Int.add_zero]
    show dueOfSlots (e? :: elements) ≤ c.balance - c'.balance
    omega

/-- No text that is read as a tree costs less than what is due for the tree. -/
theorem due_le_balance {source : String} (h : Reads source e) :
    e.due ≤ Text.balance source.toList := by
  obtain ⟨_, c', hderives, hend⟩ := h
  have hbalanced : Pays ((Cursor.ofString source).balance - c'.balance) false e :=
    hderives.balanced.2 e rfl
  have hdue := pays_false.1 hbalanced
  have hc' : c'.balance = 0 := by
    rw [← c'.balance_pastBlanks, Cursor.balance, hend]
    rfl
  rw [hc', Int.sub_zero] at hdue
  exact hdue

end Grammar

end Estree
