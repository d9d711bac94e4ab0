import Estree.Proofs.Transfer.Basic

/-!
# Transferred member accesses and calls

After a member access or a call what goes on is decided by what comes next. Before one it is found
where it was found, as `Text.Follows` says of the text after it.

There is one lemma for each production of runs, and it has the transfers of its parts as hypotheses;
`Derives.transfers` is assembled from them. All of them go the same way: the templates of the parts
are chained to one of the whole, the new text is entered at the front, and the last part is
transferred first, so that what begins there is known to stop the part before it. Where a production
ends because no link follows, the text behind it is the one that the transfer has been given, and
`Follows.access?_eq_none` and `Follows.first_ne` say that no link follows there either.
-/

namespace Estree

open Text View

namespace Text.Follows

variable {takesComma : Bool} {c d : Cursor}

/-- Where no access went on, none goes on. -/
theorem access?_eq_none (h : Follows takesComma c.rest d.rest)
    (hnone : Token.access? c.pastBlanks.rest = none) :
    Token.access? d.pastBlanks.rest = none := by
  cases haccess : Token.access? d.pastBlanks.rest with
  | none => rfl
  | some access =>
    have hold : Token.access? c.pastBlanks.rest = some access := h.access access haccess
    rw [hnone] at hold
    cases hold

/-- Where no update stood behind an operand, none stands. -/
theorem updateOperator?_eq_none (h : Follows takesComma c.rest d.rest)
    (hnone : Token.updateOperator? (c.skipBlanks false).rest = none) :
    Token.updateOperator? (d.skipBlanks false).rest = none := by
  cases hupdate : Token.updateOperator? (d.skipBlanks false).rest with
  | none => rfl
  | some operator =>
    have hold : Token.updateOperator? (c.skipBlanks false).rest = some operator :=
      h.update operator hupdate
    rw [hnone] at hold
    cases hold

/-- No update operator begins right at the new text, either. -/
theorem updateOperator?_head (h : Follows takesComma c.rest d.rest)
    (hnone : Token.updateOperator? c.rest = none) : Token.updateOperator? d.rest = none := by
  cases hupdate : Token.updateOperator? d.rest with
  | none => rfl
  | some operator =>
    obtain ⟨y, hy, hsign⟩ : ∃ y, d.rest.head? = some y ∧ (y = '+' ∨ y = '-') := by
      rcases Token.head?_of_updateOperator? hupdate with hplus | hminus
      · exact ⟨_, hplus, Or.inl rfl⟩
      · exact ⟨_, hminus, Or.inr rfl⟩
    have hkind : isBlank y = false ∧ y ∉ delimiters := by rcases hsign with rfl | rfl <;> decide
    have hy' : c.rest.head? = some y :=
      (h.head y hy).resolve_right fun hmem => hkind.2 (mem_delimiters_of_mem_closers hmem)
    have hold := h.update operator
    rw [(not_isBlank_of_head? hy hkind.1).2, (not_isBlank_of_head? hy' hkind.1).2] at hold
    have hsome : Token.updateOperator? c.rest = some operator := hold hupdate
    rw [hnone] at hsome
    cases hsome

/-- A character that did not go on does not go on, unless it closes. -/
theorem first_ne {y : Char} (h : Follows takesComma c.rest d.rest)
    (hne : c.pastBlanks.rest.head? ≠ some y) (hy : y ∉ closers false) :
    d.pastBlanks.rest.head? ≠ some y :=
  fun hhead => (h.first y hhead).elim hne fun hmem => hy (closers_subset takesComma hmem)

end Text.Follows

namespace Grammar

open Template

variable {span? : Option Span} {depth : Nat} {c c₁ c₂ c' : Cursor} {e : Expr} {e? : Option Expr}
  {es : List Expr} {access next : Access} {before between after run : Links}

/-! ## Links -/

/-- A run that ends here ends here. -/
theorem transfers_noLink (haccess : Token.access? c.pastBlanks.rest = none)
    (hparen : c.pastBlanks.rest.head? ≠ some '(') :
    Transfers span? depth (.links before) c before c := by
  refine ⟨[], .refl span? c, ?_⟩
  rintro x rfl
  constructor
  · rintro d d' hd - hfollows
    rwa [hd.eq_of_nil] at hfollows
  · rintro d d' q values hd hstand hfollows ⟨⟩
    rename_i before' hbefore
    obtain rfl := hd.eq_of_nil
    exact ⟨before', .noLink (hfollows.access?_eq_none haccess)
      (hfollows.first_ne hparen (by decide)), hbefore⟩

/-- An access goes on with the run, and more links go on after it. -/
theorem transfers_linkAccess (haccess : Token.access? c.pastBlanks.rest = some access)
    (hmember : Transfers span? depth (.member before access)
      (c.pastBlanks.skip access.text.length) between c₁)
    (hlinks : Transfers span? depth (.links between) c₁ after c') :
    Transfers span? depth (.links before) c after c' := by
  obtain ⟨m₁, hm₁, h₁⟩ := hmember
  obtain ⟨m₂, hm₂, h₂⟩ := hlinks
  refine ⟨_, (hm₁.append hm₂).access haccess, ?_⟩
  rintro x rfl
  constructor
  · intro d d' hd hstand hfollows
    exact ((hm₁.append hm₂).enterAccess hstand haccess hd hfollows.beside).2.1
  · rintro d d' q values hd hstand hfollows ⟨⟩
    rename_i before' hbefore
    obtain ⟨haccess', -, hd, hstand₁⟩ :=
      (hm₁.append hm₂).enterAccess hstand haccess hd hfollows.beside
    obtain ⟨d₁, hd₁, hd, hstand₂⟩ := hm₁.split hstand₁ hd
    have hfollows₁ : Follows false c₁.rest d₁.rest := (h₂ x rfl).enters hd hstand₂ hfollows
    obtain ⟨between', hbetween', hsame⟩ :=
      (h₁ x rfl).derives hd₁ hstand₁ hfollows₁ (.member access hbefore)
    obtain ⟨after', hafter', hsame'⟩ := (h₂ x rfl).derives hd hstand₂ hfollows (.links hsame)
    exact ⟨after', .linkAccess haccess' hbetween' hafter', hsame'⟩

/-- Where a parenthesis opens, there is no access. -/
theorem access?_openParen {text : List Char} (h : text.head? = some '(') :
    Token.access? text = none :=
  (nothing_before_closer h (by decide)).2.2.1

/-- A call goes on with the run, and more links go on after it. -/
theorem transfers_linkCall (hopen : c.pastBlanks.rest.head? = some '(')
    (hcall : Transfers span? depth (.call before false) (c.pastBlanks.skip 1) between c₁)
    (hlinks : Transfers span? depth (.links between) c₁ after c') :
    Transfers span? depth (.links before) c after c' := by
  obtain ⟨m₁, hm₁, h₁⟩ := hcall
  obtain ⟨m₂, hm₂, h₂⟩ := hlinks
  refine ⟨_, (hm₁.append hm₂).char hopen, ?_⟩
  rintro x rfl
  constructor
  · intro d d' hd hstand hfollows
    obtain ⟨hblanks, hopen', -⟩ := Covers.enterChar hstand hopen hd
    exact hblanks.follows (follows_char _ hopen hopen' (by decide))
  · rintro d d' q values hd hstand hfollows ⟨⟩
    rename_i before' hbefore
    obtain ⟨-, hopen', hd, hstand₁⟩ := Covers.enterChar hstand hopen hd
    obtain ⟨d₁, hd₁, hd, hstand₂⟩ := hm₁.split hstand₁ hd
    have hfollows₁ : Follows false c₁.rest d₁.rest := (h₂ x rfl).enters hd hstand₂ hfollows
    obtain ⟨between', hbetween', hsame⟩ :=
      (h₁ x rfl).derives hd₁ hstand₁ hfollows₁ (.call false hbefore)
    obtain ⟨after', hafter', hsame'⟩ := (h₂ x rfl).derives hd hstand₂ hfollows (.links hsame)
    exact ⟨after', .linkCall (access?_openParen hopen') hopen' hbetween' hafter', hsame'⟩

/-! ## Member accesses -/

/-- Accesses one after the other. -/
theorem transfers_member (h : Transfers span? depth (.accesses before access) c after c') :
    Transfers span? depth (.member before access) c after c' := by
  obtain ⟨m, hm, h⟩ := h
  refine ⟨m, hm, ?_⟩
  rintro x rfl
  refine ⟨fun _ _ _ => trivial, ?_⟩
  rintro d d' q values hd hstand hfollows ⟨⟩
  rename_i before' hbefore
  obtain ⟨after', hafter', hsame⟩ := (h x rfl).derives hd hstand hfollows (.accesses access hbefore)
  exact ⟨after', .member hafter', hsame⟩

/-- An access by an expression, with no access behind its bracket. -/
theorem transfers_computedLast {property : Expr} (hcomputed : access.computed = true)
    (hproperty : Transfers span? depth (.sequence false) c (some property) c')
    (hclose : c'.pastBlanks.rest.head? = some ']')
    (haccess : Token.access? (c'.pastBlanks.skip 1).pastBlanks.rest = none) :
    Transfers span? depth (.accesses before access) c
      (memberLinks before property access (c'.pastBlanks.skip 1).position)
      (c'.pastBlanks.skip 1) := by
  obtain ⟨m, hm, h⟩ := hproperty
  refine ⟨_, hm.append ((Covers.refl span? _).char hclose), ?_⟩
  rintro x rfl
  refine ⟨fun _ _ _ => trivial, ?_⟩
  rintro d d' q values hd hstand hfollows ⟨⟩
  rename_i before' hbefore
  obtain ⟨d₁, hd₁, hd, hstand₁⟩ := hm.split hstand hd
  obtain ⟨hblanks, hclose', hd, hstand'⟩ := Covers.enterChar hstand₁ hclose hd
  obtain rfl := hd.eq_of_nil
  have hfollows₁ := hblanks.follows (follows_char true hclose hclose' (by decide))
  obtain ⟨property?, hproperty', hsame?⟩ :=
    (h x rfl).derives hd₁ hstand hfollows₁ (.sequence false)
  obtain ⟨property', rfl, hsame⟩ := hsame?.exists_some
  exact ⟨_, .computedLast hcomputed hproperty' hclose' (hfollows.access?_eq_none haccess),
    hbefore.computed x.comparable hsame hcomputed hstand'⟩

/-- An access by an expression, with another access behind its bracket. -/
theorem transfers_computedNext {property : Expr} (hcomputed : access.computed = true)
    (hproperty : Transfers span? depth (.sequence false) c (some property) c₁)
    (hclose : c₁.pastBlanks.rest.head? = some ']')
    (hnext : Token.access? (c₁.pastBlanks.skip 1).pastBlanks.rest = some next)
    (hafter : Transfers span? depth
      (.accesses (memberLinks before property access (c₁.pastBlanks.skip 1).position) next)
      ((c₁.pastBlanks.skip 1).pastBlanks.skip next.text.length) after c') :
    Transfers span? depth (.accesses before access) c after c' := by
  obtain ⟨m₁, hm₁, h₁⟩ := hproperty
  obtain ⟨m₂, hm₂, h₂⟩ := hafter
  refine ⟨_, hm₁.append ((hm₂.access hnext).char hclose), ?_⟩
  rintro x rfl
  refine ⟨fun _ _ _ => trivial, ?_⟩
  rintro d d' q values hd hstand hfollows ⟨⟩
  rename_i before' hbefore
  obtain ⟨d₁, hd₁, hd, hstand₁⟩ := hm₁.split hstand hd
  obtain ⟨hblanks, hclose', hd, hstand₂⟩ := Covers.enterChar hstand₁ hclose hd
  obtain ⟨hnext', -, hd, hstand₃⟩ := hm₂.enterAccess hstand₂ hnext hd hfollows.beside
  have hfollows₁ := hblanks.follows (follows_char true hclose hclose' (by decide))
  obtain ⟨property?, hproperty', hsame?⟩ :=
    (h₁ x rfl).derives hd₁ hstand hfollows₁ (.sequence false)
  obtain ⟨property', rfl, hsame⟩ := hsame?.exists_some
  obtain ⟨after', hafter', hsame'⟩ := (h₂ x rfl).derives hd hstand₃ hfollows
    (.accesses next (hbefore.computed x.comparable hsame hcomputed hstand₂))
  exact ⟨after', .computedNext hcomputed hproperty' hclose' hnext' hafter', hsame'⟩

/-- An access by a name, with no access behind it. -/
theorem transfers_namedLast {property : Expr} (hcomputed : access.computed = false)
    (hproperty : Leaf.propertyName c.pastBlanks = .ok property c')
    (haccess : Token.access? c'.pastBlanks.rest = none) :
    Transfers span? depth (.accesses before access) c
      (memberLinks before property access property.span.stop) c' := by
  obtain ⟨word, hne, hpass, -, rfl, hword⟩ := Leaf.propertyName_beside hproperty
  refine ⟨_, (Covers.keep hpass).pastBlanks, ?_⟩
  rintro x rfl
  refine ⟨fun _ _ _ => trivial, ?_⟩
  rintro d d' q values hd hstand hfollows ⟨⟩
  rename_i before' hbefore
  obtain ⟨hblanks, hd⟩ := (Covers.keep hpass).enter hstand hd hfollows.beside
  rw [new_keep] at hd
  obtain ⟨hword', hproperty'⟩ := hword hd hfollows.beside
  have hstand' : x.Stand c' d' := hblanks.stand.kept hpass hd
  exact ⟨_, .namedLast hcomputed (head?_ne_of_leadingWord hword' hne (by decide)) hproperty'
    (hfollows.access?_eq_none haccess),
    hbefore.named x.comparable
      (relocated_identifier (relocated_eq hblanks.stand hstand') _) hcomputed hstand'⟩

/-- An access by a name, with another access behind it. -/
theorem transfers_namedNext {property : Expr} (hcomputed : access.computed = false)
    (hproperty : Leaf.propertyName c.pastBlanks = .ok property c₁)
    (hnext : Token.access? c₁.pastBlanks.rest = some next)
    (hafter : Transfers span? depth
      (.accesses (memberLinks before property access property.span.stop) next)
      (c₁.pastBlanks.skip next.text.length) after c') :
    Transfers span? depth (.accesses before access) c after c' := by
  obtain ⟨word, hne, hpass, -, rfl, hword⟩ := Leaf.propertyName_beside hproperty
  obtain ⟨m, hm, h⟩ := hafter
  refine ⟨_, ((Covers.keep hpass).append (hm.access hnext)).pastBlanks, ?_⟩
  rintro x rfl
  refine ⟨fun _ _ _ => trivial, ?_⟩
  rintro d d' q values hd hstand hfollows ⟨⟩
  rename_i before' hbefore
  obtain ⟨hblanks, hd⟩ :=
    ((Covers.keep hpass).append (hm.access hnext)).enter hstand hd hfollows.beside
  obtain ⟨d₁, hd₁, hd, hstand₁⟩ := (Covers.keep hpass).split hblanks.stand hd
  obtain ⟨hnext', hfollows₁, hd, hstand₂⟩ := hm.enterAccess hstand₁ hnext hd hfollows.beside
  rw [new_keep] at hd₁
  obtain ⟨hword', hproperty'⟩ := hword hd₁ hfollows₁.beside
  obtain ⟨after', hafter', hsame⟩ := (h x rfl).derives hd hstand₂ hfollows
    (.accesses next (hbefore.named x.comparable
      (relocated_identifier (relocated_eq hblanks.stand hstand₁) _) hcomputed hstand₁))
  exact ⟨after', .namedNext hcomputed (head?_ne_of_leadingWord hword' hne (by decide)) hproperty'
    hnext' hafter', hsame⟩

/-- A call that takes over from an access. -/
theorem transfers_accessedCall (hcomputed : access.computed = false)
    (hopen : c.pastBlanks.rest.head? = some '(')
    (h : Transfers span? depth
      (.call ⟨before.node, before.hasOptional || access.optional⟩ access.optional)
      (c.pastBlanks.skip 1) after c') :
    Transfers span? depth (.accesses before access) c after c' := by
  obtain ⟨m, hm, h⟩ := h
  refine ⟨_, hm.char hopen, ?_⟩
  rintro x rfl
  refine ⟨fun _ _ _ => trivial, ?_⟩
  rintro d d' q values hd hstand hfollows ⟨⟩
  rename_i before' hbefore
  obtain ⟨-, hopen', hd, hstand₁⟩ := Covers.enterChar hstand hopen hd
  obtain ⟨after', hafter', hsame⟩ := (h x rfl).derives hd hstand₁ hfollows
    (.call access.optional (hbefore.withOptional access.optional))
  exact ⟨after', .accessedCall hcomputed hopen' hafter', hsame⟩

/-! ## Calls -/

/-- A call with no access behind its arguments. -/
theorem transfers_callLast {optional : Bool} (h : Transfers span? depth .arguments c es c')
    (haccess : Token.access? c'.pastBlanks.rest = none) :
    Transfers span? depth (.call before optional) c
      (callLinks before es optional c'.position) c' := by
  obtain ⟨m, hm, h⟩ := h
  refine ⟨m, hm, ?_⟩
  rintro x rfl
  refine ⟨fun _ _ _ => trivial, ?_⟩
  rintro d d' q values hd hstand hfollows ⟨⟩
  rename_i before' hbefore
  obtain ⟨es', hes', hsame⟩ := (h x rfl).derives hd hstand hfollows .arguments
  exact ⟨_, .callLast hes' (hfollows.access?_eq_none haccess),
    hbefore.called x.comparable hsame optional (hstand.passes hm.passes hm.isAt hd)⟩

/-- A call with an access behind its arguments. -/
theorem transfers_callNext {optional : Bool} (h : Transfers span? depth .arguments c es c₁)
    (hnext : Token.access? c₁.pastBlanks.rest = some next)
    (hmember : Transfers span? depth (.member (callLinks before es optional c₁.position) next)
      (c₁.pastBlanks.skip next.text.length) after c') :
    Transfers span? depth (.call before optional) c after c' := by
  obtain ⟨m₁, hm₁, h₁⟩ := h
  obtain ⟨m₂, hm₂, h₂⟩ := hmember
  refine ⟨_, hm₁.append (hm₂.access hnext), ?_⟩
  rintro x rfl
  refine ⟨fun _ _ _ => trivial, ?_⟩
  rintro d d' q values hd hstand hfollows ⟨⟩
  rename_i before' hbefore
  obtain ⟨d₁, hd₁, hd, hstand₁⟩ := hm₁.split hstand hd
  obtain ⟨hnext', hfollows₁, hd, hstand₂⟩ := hm₂.enterAccess hstand₁ hnext hd hfollows.beside
  obtain ⟨es', hes', hsame⟩ := (h₁ x rfl).derives hd₁ hstand hfollows₁ .arguments
  obtain ⟨after', hafter', hsame'⟩ := (h₂ x rfl).derives hd hstand₂ hfollows
    (.member next (hbefore.called x.comparable hsame optional hstand₁))
  exact ⟨after', .callNext hes' hnext' hafter', hsame'⟩

/-- The parenthesis that ended the arguments ends them. -/
theorem transfers_arguments (h : Transfers span? depth .argumentList c es c')
    (hclose : c'.rest.head? = some ')') :
    Transfers span? depth .arguments c es (c'.skip 1) := by
  obtain ⟨m, hm, h⟩ := h
  have hlast : Covers span? c' (keep [')']) (c'.skip 1) :=
    .keep (Cursor.passes_skip (Cursor.rest_eq_cons_skip hclose))
  refine ⟨_, hm.append hlast, ?_⟩
  rintro x rfl
  refine ⟨fun _ _ _ => trivial, ?_⟩
  rintro d d' q values hd hstand - ⟨⟩
  obtain ⟨d₁, hd₁, hd, -⟩ := hm.split hstand hd
  rw [new_keep] at hd
  have hclose' : d₁.rest.head? = some ')' := hd.head?_rest
  obtain rfl : d' = d₁.skip 1 := hd.eq_skip
  obtain ⟨es', hes', hsame⟩ := (h x rfl).derives hd₁ hstand
    (follows_char _ hclose hclose' (by decide)) .argumentList
  exact ⟨es', .arguments hes' hclose', hsame⟩

/-- A list of arguments ends where no comma followed. -/
theorem transfers_lastArgument (h : Transfers span? depth .expression c e? c')
    (hcomma : c'.pastBlanks.rest.head? ≠ some ',') :
    Transfers span? depth .argumentList c e?.toList c'.pastBlanks := by
  obtain ⟨m, hm, h⟩ := h
  refine ⟨_, hm.append (.keep c'.passes_blanks), ?_⟩
  rintro x rfl
  refine ⟨fun _ _ _ => trivial, ?_⟩
  rintro d d' q values hd hstand hfollows ⟨⟩
  obtain ⟨d₁, hd₁, hblanks, rfl, hfollows₁⟩ := hm.leave hstand hd hfollows
  obtain ⟨e?', he', hsame⟩ := (h x rfl).derives hd₁ hstand hfollows₁.untaken .expression
  exact ⟨_, .lastArgument he' (hfollows.head?_ne_comma hcomma), hsame.toList⟩

/-- A list of arguments goes on behind a comma. -/
theorem transfers_moreArguments (he : Transfers span? depth .expression c (some e) c₁)
    (hcomma : c₁.pastBlanks.rest.head? = some ',')
    (hes : Transfers span? depth .argumentList (c₁.pastBlanks.skip 1) es c') :
    Transfers span? depth .argumentList c (e :: es) c' := by
  obtain ⟨m₁, hm₁, h₁⟩ := he
  obtain ⟨m₂, hm₂, h₂⟩ := hes
  refine ⟨_, hm₁.append (hm₂.char hcomma), ?_⟩
  rintro x rfl
  refine ⟨fun _ _ _ => trivial, ?_⟩
  rintro d d' q values hd hstand hfollows ⟨⟩
  obtain ⟨d₁, hd₁, hd, hstand₁⟩ := hm₁.split hstand hd
  obtain ⟨hblanks, hcomma', hd, hstand₂⟩ := Covers.enterChar hstand₁ hcomma hd
  obtain ⟨es', hes', hsames⟩ := (h₂ x rfl).derives hd hstand₂ hfollows .argumentList
  have hfollows₁ := hblanks.follows (follows_char false hcomma hcomma' (by decide))
  obtain ⟨e?', he', hsame?⟩ := (h₁ x rfl).derives hd₁ hstand hfollows₁ .expression
  obtain ⟨e', rfl, hsame⟩ := hsame?.exists_some
  exact ⟨_, .moreArguments he' hcomma' hes', hsame.cons hsames⟩

end Grammar

end Estree
