import Estree.Proofs.Transfer.Peeled

/-!
# Nodes and the pieces they are read from

Every node of a tree that is read is itself read from a piece of the text, to the end of the piece
(`Derives.settles`), except for those that are only parts of others: the name of a member access and
the links within a chain. A run and a row of operands are read in one go, and their nodes are what
has grown up to some step; the text is cut behind it.

What holds of a node is one of three things (`Resolved`):

> it stands in the text (`Stands`): its piece, read alone, is read as the node;
> or it opens with a word that is an operator elsewhere, as `typeof` after a point;
> or it is withheld by the node above it (`withheld`), and is no tree of its own.

That a node stands is shown by cutting the text. A derivation needs nothing of the text behind what
it passes but its first characters, so with the text cut there it is a derivation still
(`Derives.cut`), and what it reads is read to the end. Within a longer production the text is cut at
a step: behind some links of a run or some operands of a row (`Derives.cutWithin`).

`Derives.settles` is an induction on derivations. Of a production that yields a tree it says that
all nodes of the tree are resolved (`Settled`). A run needs more than that while it is read: its
nodes are resolved as parts of the node that it has grown to, but whether they are withheld depends
on whether a chain will be put around them, and that is known at its end only (`RunSettled`,
`RunSettled.finish`). For this reason a run and a row are told as sequences of steps, and the
induction goes over the steps (`linked_settled`, `joined_settled`).
-/

open Estree.Expr

namespace Estree

open Text Relation

namespace Expr

/-- The links of the run that ends in the node, from the last one to the first. -/
def spineLinks : Expr → List Expr
  | e@(call _ callee _ _) => e :: callee.spineLinks
  | e@(member _ object _ _ _) => e :: object.spineLinks
  | _ => []

/-- The nodes below a node that are read only as its parts: the name of a member access, and the
links within a chain. -/
def withheld : Expr → List Expr
  | member _ _ property false _ => [property]
  | chain _ expression => expression.spineLinks
  | _ => []

end Expr

namespace Leaf

/-- A word has no nodes below it. -/
theorem children_ofWord (span : Span) (word : String) : (ofWord span word).children = [] := by
  unfold ofWord
  split <;> rfl

/-- A number has no nodes below it. -/
theorem children_number {c c' : Cursor} {e : Expr}
    (hstart : Pattern.numberStart.isAtStart c.rest = true) (h : number c = .ok e c') :
    e.children = [] := by
  obtain ⟨_, _, -, -, -, rfl⟩ := number_eq_ok hstart h
  rfl

end Leaf

namespace Grammar

variable {depth : Nat} {p : Production} {c c' c₁ : Cursor} {v : p.Yield} {text : List Char}
  {e primary : Expr} {es : List Expr}

/-! ## Where the text is cut -/

/-- What is read is read to the end of a piece of the text. -/
theorem Derives.cut (h : Derives depth p c v c') (hc : c.IsIn text) :
    ∃ d d', Derives depth p d v d' ∧ d'.AtEnd ∧ Enters p c d ∧
      ∀ e, ReadsToEnd d e → Stands text e := by
  obtain ⟨piece, hpass⟩ := h.reaches.exists_passes
  obtain ⟨d', hd, hd'⟩ := Cursor.exists_end c.position piece
  obtain ⟨hcut, henters⟩ := h.elsewhere hpass hd rfl (by rw [hd']; exact follows_nil c'.rest)
  obtain ⟨before, rfl, hsize⟩ := hc
  exact ⟨_, d', hcut, .of_rest hd', henters, fun e he =>
    ⟨before, piece, c'.rest, by rw [hpass.rest_eq], hsize ▸ he⟩⟩

/-- What is read to the end of the text that is cut behind it stands in the text. -/
theorem Derives.stands (h : Derives depth p c v c') (hc : c.IsIn text)
    (hread : ∀ {d d' : Cursor}, Derives depth p d v d' → d'.AtEnd → ReadsToEnd d e) :
    Stands text e := by
  obtain ⟨d, d', hcut, hend, -, hstands⟩ := h.cut hc
  exact hstands e (hread hcut hend)

/-- After the first part of an operand some steps are cut off. -/
theorem Derives.cutWithin {α : Type} {step : Cursor × α → Cursor × α → Prop}
    (h : Derives depth p c v c') (hcomma : p.takesComma = false) (hc : c.IsIn text)
    (hstep : Portable step) {a : α} {t : Cursor × α} (hrun : ReflTransGen step (c', a) t) :
    ∃ d d₁ d', Derives depth p d v d₁ ∧ ReflTransGen step (d₁, a) (d', t.2) ∧ d'.AtEnd ∧
      Enters p c d ∧ ∀ e, ReadsToEnd d e → Stands text e := by
  obtain ⟨first, hfirst⟩ := h.reaches.exists_passes
  obtain ⟨piece, hpiece, hport⟩ := hstep.reflTransGen hrun
  obtain ⟨d', hd, hd'⟩ := Cursor.exists_end c.position (first ++ piece)
  obtain ⟨hd₁, hd₂⟩ := hd.split
  have hposition : c'.position =
      ((Cursor.mk c.position (first ++ piece)).skip first.length).position := by
    rw [hfirst.position_eq, hd₁.position_eq]
  obtain ⟨hrun', hfollows⟩ := hport hd₂ hposition (by rw [hd']; exact follows_nil t.1.rest)
  obtain ⟨hcut, henters⟩ := h.elsewhere hfirst hd₁ rfl (hcomma ▸ hfollows)
  obtain ⟨before, rfl, hsize⟩ := hc
  exact ⟨_, _, d', hcut, hrun', .of_rest hd', henters, fun e he =>
    ⟨before, first ++ piece, t.1.rest, by rw [(hfirst.trans hpiece).rest_eq], hsize ▸ he⟩⟩

/-- A row of operands stands at each of its steps. -/
theorem stands_joined {P : Expr → Prop} {left : Expr} {w : Cursor × Climbed × Bool}
    (hleft : Derives depth .unary c.pastBlanks (some left) c₁) (hc : c.IsIn text)
    (hrun : Joined P depth
      (c₁, ⟨left, none⟩, (Token.unaryOperator? c.pastBlanks.rest).isSome) w) :
    Stands text w.2.1.expr := by
  obtain ⟨d, d₁, d', hcut, hrun', hend, henters, hstands⟩ :=
    hleft.cutWithin rfl hc.pastBlanks portable_join hrun
  have hbare : (Token.unaryOperator? d.pastBlanks.rest).isSome =
      (Token.unaryOperator? c.pastBlanks.pastBlanks.rest).isSome := henters
  rw [c.pastBlanks_pastBlanks] at hbare
  rw [← hbare] at hrun'
  have hunary := (derives_pastBlanks_iff (p := .unary) trivial).2 hcut
  exact hstands _ (readsToEnd_joined (w := (d', w.2)) hunary hrun' hend).readsToEnd

/-! ## Operators that are read as names -/

/-- The words of unary operators are no reserved words. -/
theorem opensWithOperator_ofWord {span : Span} {word : String}
    (h : (UnaryOperator.ofText? word).isSome = true) :
    (Leaf.ofWord span word).opensWithOperator = true := by
  unfold Leaf.ofWord
  split <;> exact h

/-- Where a unary operator stands, a primary expression can only be its word, as a name. -/
theorem opensWithOperator_of_unaryOperator? {operator : UnaryOperator}
    (h : Derives depth .primary c (some primary) c₁)
    (hop : Token.unaryOperator? c.rest = some operator) : primary.opensWithOperator = true := by
  cases h with
  | primary h =>
    cases h with
    | group hopen => cases (unaryOperator?_opening hopen (by decide)).symm.trans hop
    | leadingUpdate hupdate =>
      cases (Token.unaryOperator?_of_updateOperator? hupdate).symm.trans hop
    | new hword =>
      rw [Token.unaryOperator?_of_leadingWord hword (by decide)] at hop
      cases hop
    | word hword hne =>
      rw [Token.unaryOperator?_of_leadingWord hword hne] at hop
      exact opensWithOperator_ofWord (Option.isSome_iff_exists.2 ⟨operator, hop⟩)
    | number hstart => cases (Token.unaryOperator?_of_numberStart hstart).symm.trans hop
    | arrayLiteral hopen => cases (unaryOperator?_opening hopen (by decide)).symm.trans hop

/-- The first word of a run stays the same. -/
theorem Linked.opensWithOperator {P : Expr → Prop} {s t : Cursor × Links} (h : Linked P depth s t) :
    t.2.node.opensWithOperator = s.2.node.opensWithOperator := by
  induction h with
  | refl => rfl
  | tail _ hlink ih =>
    rw [← ih]
    cases hlink <;> rfl

/-- A chain around a run does not change the word that it opens with. -/
theorem opensWithOperator_finish (links : Links) :
    links.finish.opensWithOperator = links.node.opensWithOperator := by
  unfold Links.finish
  split <;> rfl

/-- A run stands at each of its steps. -/
theorem stands_linked {P : Expr → Prop} {t : Cursor × Links}
    (hprimary : Derives depth .primary c (some primary) c₁) (hc : c.IsIn text)
    (hrun : Linked P depth (c₁, ⟨primary, false⟩) t) :
    Stands text t.2.finish ∨ t.2.finish.opensWithOperator = true := by
  cases hop : Token.unaryOperator? c.rest with
  | none =>
    obtain ⟨d, d₁, d', hcut, hrun', hend, henters, hstands⟩ :=
      hprimary.cutWithin rfl hc portable_link hrun
    have hstarts : StartsOperand d.rest := hcut.starts
    have hpast := hstarts.pastBlanks_eq
    have hop' : Token.unaryOperator? d.rest = none := henters hop
    rw [← hpast] at hcut hop'
    exact Or.inl (hstands _ (readsToEnd_linked (t := (d', t.2)) hcut hrun' hend hop').readsToEnd)
  | some operator =>
    rw [opensWithOperator_finish, hrun.opensWithOperator]
    exact Or.inr (opensWithOperator_of_unaryOperator? hprimary hop)

/-- A primary expression is read alone, unless its word is an operator there. -/
theorem stands_primary (h : Derives depth .primary c (some e) c') (hc : c.IsIn text) :
    Stands text e ∨ e.opensWithOperator = true :=
  @stands_linked depth c c' text e (fun _ => True) (c', ⟨e, false⟩) h hc .refl

/-- A token is read alone if no operator is read where it begins. -/
theorem stands_token (h : Derives depth .token c (some e) c') (hc : c.IsIn text)
    (hop : Token.unaryOperator? c.pastBlanks.rest = none) : Stands text e := by
  obtain ⟨d, d', hcut, hend, henters, hstands⟩ := h.cut hc
  exact hstands _ (readsToEnd_token hcut hend (henters hop)).readsToEnd

/-! ## All nodes -/

/-- What is claimed of a node of a tree: it stands in the text, or it opens with a word that is an
operator elsewhere, or it is only part of another node. -/
def Resolved (text : List Char) (root n : Expr) : Prop :=
  Stands text n ∨ n.opensWithOperator = true ∨ ∃ m ∈ root.nodes, n ∈ m.withheld

/-- All nodes of the tree are accounted for. -/
def Settled (text : List Char) (e : Expr) : Prop :=
  ∀ n ∈ e.nodes, Resolved text e n

/-- The root of a tree is part of no other node. -/
theorem resolved_of_stands {root n : Expr} (h : Stands text n ∨ n.opensWithOperator = true) :
    Resolved text root n :=
  h.imp_right Or.inl

/-- A node that is accounted for below a node is so below the nodes above. -/
theorem Resolved.mono {root child n : Expr} (h : Resolved text child n)
    (hchild : child ∈ root.children) : Resolved text root n :=
  h.imp_right (Or.imp_right fun ⟨m, hm, hn⟩ => ⟨m, mem_nodes_of_mem_children hchild hm, hn⟩)

/-- All nodes are accounted for if the root is, and so are those below. -/
theorem settled_of_children (hroot : Stands text e ∨ e.opensWithOperator = true)
    (hchildren : ∀ x ∈ e.children, Settled text x) : Settled text e :=
  forall_mem_nodes_iff.2 ⟨resolved_of_stands hroot, fun x hx n hn => (hchildren x hx n hn).mono hx⟩

/-- A tree without nodes below it is accounted for by its root. -/
theorem settled_leaf (hroot : Stands text e ∨ e.opensWithOperator = true)
    (hleaf : e.children = []) : Settled text e :=
  settled_of_children hroot (hleaf ▸ nofun)

/-- All nodes of a run are accounted for, if its links are parts of a chain whenever one of them is
optional. -/
def RunSettled (text : List Char) (run : Links) : Prop :=
  ∀ n ∈ run.node.nodes, Resolved text run.node n ∨
    run.hasOptional = true ∧ n ∈ run.node.spineLinks

/-- One more link: its own nodes are accounted for, and those of the run before it stay so. -/
theorem RunSettled.grown {before after : Links} {others : List Expr} (h : RunSettled text before)
    (hchildren : after.node.children = before.node :: others)
    (hspine : after.node.spineLinks = after.node :: before.node.spineLinks)
    (hoptional : before.hasOptional = true → after.hasOptional = true)
    (hothers : ∀ x ∈ others, ∀ n ∈ x.nodes, Resolved text after.node n)
    (hroot : Stands text after.finish ∨ after.finish.opensWithOperator = true) :
    RunSettled text after := by
  have hbefore : before.node ∈ after.node.children := by
    rw [hchildren]
    exact List.mem_cons_self ..
  refine forall_mem_nodes_iff.2 ⟨?_, ?_⟩
  · by_cases hafter : after.hasOptional = true
    · rw [hspine]
      exact Or.inr ⟨hafter, List.mem_cons_self ..⟩
    · rw [Links.finish, if_neg hafter] at hroot
      exact Or.inl (resolved_of_stands hroot)
  · rw [hchildren]
    refine List.forall_mem_cons.2 ⟨fun n hn => ?_, fun x hx n hn => Or.inl (hothers x hx n hn)⟩
    rcases h n hn with hn | ⟨hhas, hn⟩
    · exact Or.inl (hn.mono hbefore)
    · rw [hspine]
      exact Or.inr ⟨hoptional hhas, List.mem_cons_of_mem _ hn⟩

/-- At the end of a run the chain is there that withholds its links, or none was needed. -/
theorem RunSettled.finish {run : Links} (h : RunSettled text run)
    (hroot : Stands text run.finish ∨ run.finish.opensWithOperator = true) :
    Settled text run.finish := by
  unfold Links.finish at hroot ⊢
  split at hroot
  next hoptional =>
    rw [if_pos hoptional]
    have hchild : run.node ∈ (chain run.node.span run.node).children := List.mem_singleton_self _
    refine forall_mem_nodes_iff.2 ⟨resolved_of_stands hroot, fun x hx n hn => ?_⟩
    obtain rfl := List.mem_singleton.1 hx
    rcases h n hn with hn | ⟨-, hn⟩
    · exact hn.mono hchild
    · exact Or.inr (Or.inr ⟨_, mem_nodes_self _, hn⟩)
  next hoptional =>
    rw [if_neg hoptional]
    intro n hn
    exact (h n hn).resolve_right fun hspine => hoptional hspine.1

/-- All links of a run, one after the other. -/
theorem linked_settled {t : Cursor × Links}
    (hprimary : Derives depth .primary c (some primary) c₁) (hc : c.IsIn text)
    (hsettled : Settled text primary)
    (hrun : Linked (Settled text) depth (c₁, ⟨primary, false⟩) t) : RunSettled text t.2 := by
  induction hrun with
  | refl => exact fun n hn => Or.inl (hsettled n hn)
  | @tail w t hgrown hlink ih =>
    have hroot := stands_linked hprimary hc (hgrown.tail hlink)
    have hsettledOf : ∀ {root x : Expr}, x ∈ root.children → Settled text x →
        ∀ n ∈ x.nodes, Resolved text root n := fun hx h n hn => (h n hn).mono hx
    have hor : ∀ {a b : Bool}, a = true → (a || b) = true := fun h => by rw [h, Bool.true_or]
    cases hlink with
    | @named c c' before access property _ hcomputed hname =>
      obtain ⟨-, rfl, -⟩ := Leaf.propertyName_eq_ok.1 hname
      refine ih.grown rfl rfl hor (fun x hx n hn => ?_) hroot
      obtain rfl := List.mem_singleton.1 hx
      obtain rfl := List.mem_singleton.1 hn
      refine Or.inr (Or.inr ⟨_, mem_nodes_self _, ?_⟩)
      show _ ∈ withheld (member _ _ _ access.computed _)
      rw [hcomputed]
      exact List.mem_singleton_self _
    | computed _ _ _ hproperty _ =>
      refine ih.grown rfl rfl hor (fun x hx => ?_) hroot
      obtain rfl := List.mem_singleton.1 hx
      exact hsettledOf (List.mem_cons_of_mem _ hx) hproperty
    | accessedCall _ _ _ _ hes =>
      exact ih.grown rfl rfl (fun h => hor (hor h))
        (fun x hx => hsettledOf (List.mem_cons_of_mem _ hx) (hes x hx)) hroot
    | call _ _ hes =>
      exact ih.grown rfl rfl hor
        (fun x hx => hsettledOf (List.mem_cons_of_mem _ hx) (hes x hx)) hroot

/-- The operands are the nodes right below the node that joins them. -/
theorem children_join (operator : InfixOperator) (left right : Expr) :
    (operator.join left right).children = [left, right] := by
  cases operator <;> rfl

/-- All operands of a row, one after the other. -/
theorem joined_settled {left : Expr} {w : Cursor × Climbed × Bool}
    (hleft : Derives depth .unary c.pastBlanks (some left) c₁) (hc : c.IsIn text)
    (hsettled : Settled text left)
    (hrun : Joined (Settled text) depth
      (c₁, ⟨left, none⟩, (Token.unaryOperator? c.pastBlanks.rest).isSome) w) :
    Settled text w.2.1.expr := by
  induction hrun with
  | refl => exact hsettled
  | @tail u w hgrown hjoin ih =>
    have hroot := stands_joined hleft hc (hgrown.tail hjoin)
    cases hjoin with
    | @joined c c' left right _ operator _ _ _ hright _ =>
      refine settled_of_children (Or.inl hroot) fun x hx => ?_
      rw [children_join] at hx
      rcases List.mem_cons.1 hx with rfl | hx
      · exact ih
      · obtain rfl := List.mem_singleton.1 hx
        exact hright

/-- What is accounted for in the yield of a production. Runs are taken apart into their steps: the
links of accesses from the place before the first of them, and those of a call from behind its
arguments. -/
def Settles (text : List Char) (depth : Nat) : (p : Production) → Cursor → p.Yield → Cursor → Prop
  | .sequence _, _, e?, _ | .expression, _, e?, _ | .conditional, _, e?, _ | .unary, _, e?, _
  | .unaryForm, _, e?, _ | .token, _, e?, _ | .primary, _, e?, _ | .primaryForm, _, e?, _ =>
    ∀ e ∈ e?, Settled text e
  | .expressions _, _, es, _ | .arguments, _, es, _ | .argumentList, _, es, _ =>
    ∀ e ∈ es, Settled text e
  | .elements, _, elements, _ => ∀ e ∈ elements.filterMap id, Settled text e
  | .operands _, _, climbed?, _ | .climb _, _, climbed?, _ =>
    ∀ climbed ∈ climbed?, Settled text climbed.expr
  | .infixes _ left isBareUnary, c, climbed, _ =>
    ∃ w, Joined (Settled text) depth (c, left, isBareUnary) w ∧ w.2.1 = climbed
  | .links before, c, after, c' => Linked (Settled text) depth (c, before) (c', after)
  | .member before access, c, after, c' | .accesses before access, c, after, c' =>
    ∀ k : Cursor, Token.access? k.pastBlanks.rest = some access →
      c = k.pastBlanks.skip access.text.length →
      Linked (Settled text) depth (k, before) (c', after)
  | .call before optional, c, after, c' =>
    ∃ es c₁, Derives depth .arguments c es c₁ ∧ (∀ e ∈ es, Settled text e) ∧
      Linked (Settled text) depth (c₁, callLinks before es optional c₁.position) (c', after)
  | .calleeLinks before, c, callee, _ =>
    (∃ c₁, Linked (Settled text) depth (c, before) (c₁, callee.links)) ∧
      ∀ e ∈ callee.arguments, Settled text e
  | .construct _, _, e, _ | .updated .., _, e, _ | .array _, _, e, _ =>
    ∀ x ∈ e.children, Settled text x

/-- Expressions with commas between them. -/
theorem settled_sequenceNode? {grouped? : Option Span} (hes : ∀ e ∈ es, Settled text e)
    (hroot : ∀ e ∈ sequenceNode? grouped? es, Stands text e ∨ e.opensWithOperator = true) :
    ∀ e ∈ sequenceNode? grouped? es, Settled text e := by
  intro e he
  rcases es with _ | ⟨first, _ | ⟨second, rest⟩⟩
  · cases he
  · cases he
    exact hes _ (List.mem_cons_self ..)
  · have hstands := hroot e he
    cases he
    exact settled_of_children hstands hes

/-- All nodes of whatever is read are accounted for. -/
theorem Derives.settles (h : Derives depth p c v c') (hc : c.IsIn text) :
    Settles text depth p c v c' := by
  induction h with
  | @ungrouped _ c c' es hes ih =>
    -- One expression has been settled already; a sequence has to stand alone.
    refine settled_sequenceNode? (ih hc.pastBlanks) fun e he => Or.inl ?_
    have hderives := Derives.ungrouped hes
    rw [he] at hderives
    exact hderives.stands hc fun hcut hend => ⟨_, _, hcut, hend⟩
  | @grouped _ c c' es hopen hes hclose hne ih =>
    refine settled_sequenceNode? (ih (hc.pastBlanks.skip 1)) fun e he => ?_
    have hgroup : Derives _ (.sequence true) c.pastBlanks _ _ :=
      .grouped (by rwa [c.pastBlanks_pastBlanks]) (by rwa [c.pastBlanks_pastBlanks]) hclose hne
    rw [c.pastBlanks_pastBlanks, he] at hgroup
    exact stands_primary (.primary (.group hopen hgroup)) hc.pastBlanks
  | @lastExpression _ c c' e? _ _ _ _ ih =>
    exact fun e he => ih hc e (Option.mem_toList.1 he)
  | @moreExpressions _ c c₁ c' e es _ he _ _ ihe ih =>
    exact List.forall_mem_cons.2 ⟨ihe hc e rfl, ih ((he.isIn hc).pastBlanks.skip 1)⟩
  | expression _ ih => exact ih hc
  | @unconditional _ c c' operands? _ _ ih =>
    intro e he
    obtain ⟨climbed, hclimbed, rfl⟩ := Option.map_eq_some_iff.1 he
    exact ih hc climbed hclimbed
  | @conditional _ c c₁ c₂ c' test consequent alternate htest hquestion hconsequent hcolon
      halternate ihtest ihconsequent ihalternate =>
    rintro _ ⟨⟩
    have hc₁ := (htest.isIn hc).pastBlanks.skip 1
    have hc₂ := (hconsequent.isIn hc₁).pastBlanks.skip 1
    have hroot := (Derives.conditional htest hquestion hconsequent hcolon halternate).stands hc
      fun hcut hend => (readsToEnd_expression (.expression hcut) hend).readsToEnd
    have hbranches := List.forall_mem_cons.2 ⟨ihconsequent hc₁ consequent rfl,
      List.forall_mem_singleton.2 (ihalternate hc₂ alternate rfl)⟩
    exact settled_of_children (Or.inl hroot)
      (List.forall_mem_cons.2 ⟨ihtest hc test rfl, hbranches⟩)
  | operands _ ih => exact ih hc
  | noOperand => exact nofun
  | @climb _ c c₁ c' _ left climbed hleft _ ihleft ih =>
    rintro _ ⟨⟩
    obtain ⟨w, hrun, rfl⟩ := ih (hleft.isIn hc.pastBlanks)
    exact joined_settled hleft hc (ihleft hc.pastBlanks left rfl) hrun
  | noInfix => exact ⟨_, .refl, rfl⟩
  | @joined _ c c₁ c' _ left right climbed _ operator hop _ hbare hright hallows _ ihright ih =>
    have hc₁ := hc.pastBlanks.skip operator.text.length
    obtain ⟨w, hrun, rfl⟩ := ih (hright.isIn hc₁)
    exact ⟨w, .head (.joined hop hbare hright (ihright hc₁ right rfl) hallows) hrun, rfl⟩
  | unary _ ih => exact ih hc
  | @unaryOperator _ c c' operator argument hop hargument ih =>
    rintro _ ⟨⟩
    have hroot := (Derives.unaryOperator hop hargument).stands hc fun hcut hend =>
      (readsToEnd_unaryForm hcut hend).readsToEnd
    refine settled_of_children (Or.inl hroot) (List.forall_mem_singleton.2 ?_)
    exact ih (hc.pastBlanks.skip _) argument rfl
  | noUnaryOperator _ _ ih => exact ih hc.pastBlanks
  | noToken => exact nofun
  | @token _ c c₁ c' primary run hprimary _ _ ihprimary ih =>
    rintro _ ⟨⟩
    have hrun : Linked _ _ _ (c', run) := ih (hprimary.isIn hc.pastBlanks)
    exact (linked_settled hprimary hc.pastBlanks (ihprimary hc.pastBlanks primary rfl) hrun).finish
      (stands_linked hprimary hc.pastBlanks hrun)
  | @trailingUpdate _ c c₁ c' primary run operator hprimary hlinks hupdate hplace ihprimary ih =>
    rintro _ ⟨⟩
    have hrun : Linked _ _ _ (c', run) := ih (hprimary.isIn hc.pastBlanks)
    have hsettled :=
      (linked_settled hprimary hc.pastBlanks (ihprimary hc.pastBlanks primary rfl) hrun).finish
        (stands_linked hprimary hc.pastBlanks hrun)
    refine settled_of_children ?_ (List.forall_mem_singleton.2 hsettled)
    -- Read alone the piece may begin with an operator where a word was read here, and then the
    -- first word of the node is one.
    cases hop : Token.unaryOperator? c.pastBlanks.rest with
    | none =>
      exact Or.inl (stands_token (.trailingUpdate hprimary hlinks hupdate hplace) hc hop)
    | some operator =>
      refine Or.inr ?_
      show run.finish.opensWithOperator = true
      rw [opensWithOperator_finish, hrun.opensWithOperator]
      exact opensWithOperator_of_unaryOperator? hprimary hop
  | noLink => exact .refl
  | @linkAccess _ c c₁ c' before between after access haccess hbetween _ ihbetween ih =>
    have hc₁ := hc.pastBlanks.skip access.text.length
    exact (ihbetween hc₁ c haccess rfl).trans (ih (hbetween.isIn hc₁))
  | @linkCall _ c c₁ c' before between after _ hopen hbetween _ ihbetween ih =>
    have hc₁ := hc.pastBlanks.skip 1
    obtain ⟨es, k, hes, hsettled, hrun⟩ := ihbetween hc₁
    exact .head (.call hopen hes hsettled) (hrun.trans (ih (hbetween.isIn hc₁)))
  | member _ ih => exact ih hc
  | computedLast hcomputed hproperty hclose _ ih =>
    rintro k haccess rfl
    exact .single (.computed haccess hcomputed hproperty (ih hc _ rfl) hclose)
  | @computedNext _ c c₁ c' before after access next property hcomputed hproperty hclose hnext _
      ihproperty ih =>
    rintro k haccess rfl
    have hc₁ := (hproperty.isIn hc).pastBlanks.skip 1
    exact .head (.computed haccess hcomputed hproperty (ihproperty hc property rfl) hclose)
      (ih (hc₁.pastBlanks.skip _) _ hnext rfl)
  | namedLast hcomputed _ hname _ =>
    rintro k haccess rfl
    exact .single (.named haccess hcomputed hname)
  | @namedNext _ c c₁ c' before after access next property hcomputed _ hname hnext _ ih =>
    rintro k haccess rfl
    have hc₁ := hc.pastBlanks.of_reaches (Leaf.reaches_propertyName hname)
    exact .head (.named haccess hcomputed hname) (ih (hc₁.pastBlanks.skip _) _ hnext rfl)
  | accessedCall hcomputed hopen _ ih =>
    rintro k haccess rfl
    obtain ⟨es, c₁, hes, hsettled, hrun⟩ := ih (hc.pastBlanks.skip 1)
    exact .head (.accessedCall haccess hcomputed hopen hes hsettled) hrun
  | callLast hes _ ih => exact ⟨_, _, hes, ih hc, .refl⟩
  | @callNext _ c c₁ c' before after optional next es hes hnext _ ihes ih =>
    exact ⟨es, c₁, hes, ihes hc, ih ((hes.isIn hc).pastBlanks.skip _) c₁ hnext rfl⟩
  | arguments _ _ ih => exact ih hc
  | lastArgument _ _ ih => exact fun e he => ih hc e (Option.mem_toList.1 he)
  | @moreArguments _ c c₁ c' e es he _ _ ihe ih =>
    exact List.forall_mem_cons.2 ⟨ihe hc e rfl, ih ((he.isIn hc).pastBlanks.skip 1)⟩
  | primary _ ih => exact ih hc
  | group _ _ ih => exact ih hc
  | @leadingUpdate _ c c' operator e hop he ih =>
    rintro _ ⟨⟩
    exact settled_of_children (stands_primary (.primary (.leadingUpdate hop he)) hc)
      (ih (hc.skip _))
  | @new _ c c' e hword he ih =>
    rintro _ ⟨⟩
    exact settled_of_children (stands_primary (.primary (.new hword he)) hc) (ih (hc.skip _))
  | @word depth c word hword hne hnew =>
    rintro _ ⟨⟩
    exact settled_leaf (stands_primary (.primary (@Derives.word depth c word hword hne hnew)) hc)
      (Leaf.children_ofWord _ _)
  | @number depth c c' e hstart hnumber =>
    rintro _ ⟨⟩
    exact settled_leaf (stands_primary (.primary (@Derives.number depth c c' e hstart hnumber)) hc)
      (Leaf.children_number hstart hnumber)
  | @arrayLiteral _ c c' e hopen he ih =>
    rintro _ ⟨⟩
    exact settled_of_children (stands_primary (.primary (.arrayLiteral hopen he)) hc)
      (ih (hc.skip _))
  | noPrimary => exact nofun
  | @construct _ c c₁ c' _ primary callee hprimary _ hoptional _ ihprimary ih =>
    obtain ⟨⟨c₂, hrun⟩, hes⟩ := ih (hprimary.isIn hc.pastBlanks)
    have hsettled :=
      (linked_settled hprimary hc.pastBlanks (ihprimary hc.pastBlanks primary rfl) hrun).finish
        (stands_linked hprimary hc.pastBlanks hrun)
    -- Without an optional link no chain is put around the callee.
    rw [Links.finish, hoptional] at hsettled
    exact List.forall_mem_cons.2 ⟨hsettled, hes⟩
  | noCalleeLink => exact ⟨⟨_, .refl⟩, List.forall_mem_nil _⟩
  | @calleeAccess _ c c₁ c' before between access callee haccess hbetween _ ihbetween ih =>
    have hc₁ := hc.pastBlanks.skip access.text.length
    obtain ⟨⟨c₂, hrun⟩, hes⟩ := ih (hbetween.isIn hc₁)
    exact ⟨⟨c₂, (ihbetween hc₁ c haccess rfl).trans hrun⟩, hes⟩
  | calleeArguments _ _ _ ih => exact ⟨⟨_, .refl⟩, ih (hc.pastBlanks.skip 1)⟩
  | updated _ _ ih => exact List.forall_mem_singleton.2 (ih hc _ rfl)
  | array _ _ ih => exact ih hc
  | @lastElement _ c c' e? _ _ ih =>
    intro e he
    rw [filterMap_id_toList] at he
    exact ih hc e (Option.mem_toList.1 he)
  | @moreElements _ c c₁ c' e? elements he _ _ ihe ih =>
    have hrest := ih ((he.isIn hc).pastBlanks.skip 1)
    cases e? with
    | none => exact hrest
    | some e => exact List.forall_mem_cons.2 ⟨ihe hc e rfl, hrest⟩

end Grammar

end Estree
