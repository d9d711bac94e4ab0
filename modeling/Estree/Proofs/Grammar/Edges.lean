import Estree.Proofs.Grammar.Parentheses

/-!
# Where nodes begin and end in what is read

A node begins where its first operand does and ends where its last one does, and a group around an
operand is no node. So between the place where a production begins and the node that it yields there
is nothing but blanks and parentheses that open, and behind the node nothing but blanks and
parentheses that close (`Derives.leads`, `Derives.trailsOff`).

> `Cursor.LeadsTo start`: from the cursor to an offset there is such an edge.
> `Cursor.Trails stop`: the same from an offset to a cursor, which stands at the end of the edge.
> `Derives.exists_edges`: a text that is read as a tree is the piece of the tree between two edges.

Both are inductions on derivations. Where a production begins, the edge grows at its front: blanks
and parentheses are passed, and then the first part has an edge of its own. A run begins before the
productions that read its links, so for these the node that has grown begins where the run before it
did. Where a production ends, the edge grows at its end, behind that of the last part. The span of a
node tells where it ends; the cursor may be further on, past the blanks behind it.
-/

namespace Estree

open Text

namespace Cursor

variable {c c' c₁ c₂ : Cursor} {start stop : Nat}

/-- From the cursor to an offset there are blanks and parentheses that open. -/
def LeadsTo (c : Cursor) (start : Nat) : Prop :=
  ∃ before c₁, c.Passes before c₁ ∧ IsEdge '(' before ∧ c₁.position = start

/-- Each place leads to itself. -/
theorem leadsTo_position (c : Cursor) : c.LeadsTo c.position :=
  ⟨[], c, .refl c, isEdge_nil '(', rfl⟩

/-- Blanks may come first. -/
theorem LeadsTo.pastBlanks (h : c.pastBlanks.LeadsTo start) : c.LeadsTo start := by
  obtain ⟨before, c₁, hpass, hbefore, hposition⟩ := h
  have hblanks : IsEdge '(' c.blanks := isEdge_of_blanks c.isBlank_of_mem_blanks
  exact ⟨_, c₁, c.passes_blanks.trans hpass, hblanks.append hbefore, hposition⟩

/-- A parenthesis that opens may come first. -/
theorem LeadsTo.open (h : (c.skip 1).LeadsTo start) (hopen : c.rest.head? = some '(') :
    c.LeadsTo start := by
  obtain ⟨before, c₁, hpass, hbefore, hposition⟩ := h
  refine ⟨_, c₁, (passes_skip (rest_eq_cons_skip hopen)).trans hpass, ?_, hposition⟩
  exact List.forall_mem_cons.2 ⟨Or.inl rfl, hbefore⟩

/-- From an offset behind the first cursor to the second one there are blanks and parentheses that
close. -/
def Trails (c : Cursor) (stop : Nat) (c' : Cursor) : Prop :=
  ∃ after c₁, c.Reaches c₁ ∧ c₁.Passes after c' ∧ IsEdge ')' after ∧ c₁.position = stop

/-- A node may end where its production does. -/
theorem Reaches.trails (h : c.Reaches c') : c.Trails c'.position c' :=
  ⟨[], c', h, .refl c', isEdge_nil ')', rfl⟩

/-- The node may be followed from any place before. -/
theorem Trails.from (h : c₁.Trails stop c') (hreaches : c.Reaches c₁) : c.Trails stop c' := by
  obtain ⟨after, c₂, hc₂, hrest⟩ := h
  exact ⟨after, c₂, hreaches.trans hc₂, hrest⟩

/-- From there to what is skipped behind the second cursor is further on. -/
theorem Trails.reaches_skip (h : c.Trails stop c') (n : Nat) :
    c.Reaches (c'.pastBlanks.skip n) := by
  obtain ⟨_, k, hk, hpass, -, -⟩ := h
  exact hk.trans (hpass.reaches.trans (c'.reaches_pastBlanks_skip n))

/-- An edge may come behind. -/
theorem Trails.passes {piece : List Char} (h : c.Trails stop c₁) (hpass : c₁.Passes piece c')
    (hpiece : IsEdge ')' piece) : c.Trails stop c' := by
  obtain ⟨after, c₂, hc₂, hpass', hafter, hposition⟩ := h
  exact ⟨_, c₂, hc₂, hpass'.trans hpass, hafter.append hpiece, hposition⟩

/-- Blanks may come behind. -/
theorem Trails.pastBlanks (h : c.Trails stop c') : c.Trails stop c'.pastBlanks :=
  h.passes c'.passes_blanks (isEdge_of_blanks c'.isBlank_of_mem_blanks)

/-- So may blanks of the line. -/
theorem Trails.inlineBlanks (h : c.Trails stop c') : c.Trails stop (c'.skipBlanks false) :=
  h.passes c'.passes_inlineBlanks (isEdge_of_blanks c'.isBlank_of_mem_inlineBlanks)

/-- A parenthesis that closes may come behind. -/
theorem Trails.close (h : c.Trails stop c') (hclose : c'.rest.head? = some ')') :
    c.Trails stop (c'.skip 1) :=
  h.passes (passes_skip (rest_eq_cons_skip hclose)) fun _ hx =>
    Or.inl (List.mem_singleton.1 hx)

end Cursor

namespace Grammar

open Cursor

variable {depth : Nat} {p : Production} {c c' : Cursor} {v : p.Yield}

/-! ## Where nodes begin -/

/-- How the place where a production begins leads to its yield. -/
def Leads : (p : Production) → Cursor → p.Yield → Prop
  | .sequence _, c, e? | .expression, c, e? | .conditional, c, e? | .unary, c, e?
  | .unaryForm, c, e? | .token, c, e? | .primary, c, e? | .primaryForm, c, e? =>
    ∀ e ∈ e?, c.LeadsTo e.span.start
  | .expressions _, c, es => ∀ e ∈ es.head?, c.LeadsTo e.span.start
  | .operands _, c, climbed? | .climb _, c, climbed? =>
    ∀ climbed ∈ climbed?, c.LeadsTo climbed.expr.span.start
  | .infixes _ left _, _, climbed => climbed.expr.span.start = left.expr.span.start
  | .links before, _, after | .member before _, _, after | .accesses before _, _, after
  | .call before _, _, after => after.node.span.start = before.node.span.start
  | .construct start, _, e | .updated _ start, _, e | .array start, _, e => e.span.start = start
  | .calleeLinks _, _, _ | .arguments, _, _ | .argumentList, _, _ | .elements, _, _ => True

/-- A chain has the span of its run. -/
theorem span_finish (run : Links) : run.finish.span = run.node.span := by
  unfold Links.finish
  split <;> rfl

/-- A word has the span that it is given. -/
theorem span_ofWord (span : Span) (word : String) : (Leaf.ofWord span word).span = span := by
  unfold Leaf.ofWord
  split <;> rfl

/-- A number has the span of its text. -/
theorem span_number {e : Expr} (hstart : Pattern.numberStart.isAtStart c.rest = true)
    (h : Leaf.number c = .ok e c') : e.span = ⟨c.position, c'.position⟩ := by
  obtain ⟨_, _, -, -, -, rfl⟩ := Leaf.number_eq_ok hstart h
  rfl

/-- Joined operands reach from the first one to the last one. -/
theorem span_join (operator : InfixOperator) (left right : Expr) :
    (operator.join left right).span = ⟨left.span.start, right.span.stop⟩ := by
  cases operator <;> rfl

/-- A node around expressions begins where the first of them does. -/
theorem leads_sequenceNode? {es : List Expr} (h : ∀ e ∈ es.head?, c.LeadsTo e.span.start) :
    ∀ e ∈ sequenceNode? none es, c.LeadsTo e.span.start := by
  intro e he
  rcases es with _ | ⟨first, _ | ⟨second, rest⟩⟩
  · cases he
  · cases he
    exact h _ rfl
  · cases he
    exact h first rfl

/-- With parentheses it begins at the one that opens, or inside. -/
theorem leads_grouped {es : List Expr} (hopen : c.rest.head? = some '(') (stop : Nat)
    (h : ∀ e ∈ es.head?, (c.skip 1).LeadsTo e.span.start) :
    ∀ e ∈ sequenceNode? (some ⟨c.position, stop⟩) es, c.LeadsTo e.span.start := by
  intro e he
  rcases es with _ | ⟨first, _ | ⟨second, rest⟩⟩
  · cases he
  · cases he
    exact (h _ rfl).open hopen
  · cases he
    exact c.leadsTo_position

/-- Whatever is read begins behind blanks and parentheses that open. -/
theorem Derives.leads (h : Derives depth p c v c') : Leads p c v := by
  induction h with
  | ungrouped _ ih => exact fun e he => (leads_sequenceNode? ih e he).pastBlanks
  | grouped hopen _ _ _ ih => exact fun e he => (leads_grouped hopen _ ih e he).pastBlanks
  | @lastExpression _ c c' e? _ _ _ _ ih =>
    intro e he
    cases e? with
    | none => cases he
    | some e₁ => exact ih e he
  | moreExpressions _ _ _ ih => exact ih
  | expression _ ih => exact ih
  | @unconditional _ c c' operands? _ _ ih =>
    intro e he
    obtain ⟨climbed, hclimbed, rfl⟩ := Option.map_eq_some_iff.1 he
    exact ih climbed hclimbed
  | conditional _ _ _ _ _ ih =>
    rintro e ⟨⟩
    exact ih _ rfl
  | operands _ ih => exact ih
  | noOperand => exact nofun
  | @climb _ c c₁ c' _ left climbed _ _ ihleft ih =>
    rintro _ ⟨⟩
    -- Operators leave the start where the left operand has it.
    have hstart : climbed.expr.span.start = left.span.start := ih
    rw [hstart]
    exact (ihleft left rfl).pastBlanks
  | noInfix => rfl
  | joined _ _ _ _ _ _ _ ih =>
    refine Eq.trans ih ?_
    rw [span_join]
  | unary _ ih => exact ih
  | unaryOperator =>
    rintro e ⟨⟩
    exact (Cursor.leadsTo_position _).pastBlanks
  | noUnaryOperator _ _ ih => exact fun e he => (ih e he).pastBlanks
  | noToken => exact nofun
  | @token _ c c₁ c' primary run _ _ _ ihprimary ihrun =>
    rintro _ ⟨⟩
    -- Links leave it where the first part has it.
    have hstart : run.node.span.start = primary.span.start := ihrun
    rw [span_finish, hstart]
    exact (ihprimary primary rfl).pastBlanks
  | @trailingUpdate _ c c₁ c' primary run _ _ _ _ _ ihprimary ihrun =>
    rintro _ ⟨⟩
    have hstart : run.node.span.start = primary.span.start := ihrun
    show c.LeadsTo run.finish.span.start
    rw [span_finish, hstart]
    exact (ihprimary primary rfl).pastBlanks
  | noLink => rfl
  | linkAccess _ _ _ ihbetween ih => exact Eq.trans ih ihbetween
  | linkCall _ _ _ _ ihbetween ih => exact Eq.trans ih ihbetween
  | member _ ih => exact ih
  | computedLast => rfl
  | computedNext _ _ _ _ _ _ ih => exact ih
  | namedLast => rfl
  | namedNext _ _ _ _ _ ih => exact ih
  | accessedCall _ _ _ ih => exact ih
  | callLast => rfl
  | callNext _ _ _ _ ih => exact ih
  | primary _ ih => exact ih
  | group _ _ ih => exact ih
  | @leadingUpdate _ c c' _ e _ _ ih =>
    rintro _ ⟨⟩
    have hstart : e.span.start = c.position := ih
    rw [hstart]
    exact c.leadsTo_position
  | @new _ c c' e _ _ ih =>
    rintro _ ⟨⟩
    have hstart : e.span.start = c.position := ih
    rw [hstart]
    exact c.leadsTo_position
  | word =>
    rintro e ⟨⟩
    rw [span_ofWord]
    exact Cursor.leadsTo_position _
  | number hstart hnumber =>
    rintro e ⟨⟩
    rw [span_number hstart hnumber]
    exact Cursor.leadsTo_position _
  | @arrayLiteral _ c c' e _ _ ih =>
    rintro _ ⟨⟩
    have hstart : e.span.start = c.position := ih
    rw [hstart]
    exact c.leadsTo_position
  | noPrimary => exact nofun
  | construct | updated | array => rfl
  | noCalleeLink | calleeAccess | calleeArguments | arguments | lastArgument | moreArguments
  | lastElement | moreElements => trivial

/-! ## Where nodes end -/

/-- How the yield of a production trails off to the place where the production ends. A run may begin
before that place: then its end is followed from there. -/
def TrailsOff : (p : Production) → Cursor → p.Yield → Cursor → Prop
  | .sequence _, c, e?, c' | .expression, c, e?, c' | .conditional, c, e?, c' | .unary, c, e?, c'
  | .unaryForm, c, e?, c' | .token, c, e?, c' | .primary, c, e?, c' | .primaryForm, c, e?, c' =>
    ∀ e ∈ e?, c.Trails e.span.stop c'
  | .expressions _, c, es, c' => ∀ e ∈ es.getLast?, c.Trails e.span.stop c'
  | .operands _, c, climbed?, c' | .climb _, c, climbed?, c' =>
    ∀ climbed ∈ climbed?, c.Trails climbed.expr.span.stop c'
  | .infixes _ left _, c, climbed, c' =>
    ∀ c₀ : Cursor, c₀.Trails left.expr.span.stop c → c₀.Trails climbed.expr.span.stop c'
  | .links before, c, after, c' =>
    ∀ c₀ : Cursor, c₀.Trails before.node.span.stop c → c₀.Trails after.node.span.stop c'
  | .calleeLinks before, c, callee, c' =>
    ∀ c₀ : Cursor, c₀.Trails before.node.span.stop c →
      c₀.Trails (callee.stop?.getD callee.links.node.span.stop) c'
  | .member .., c, after, c' | .accesses .., c, after, c' | .call .., c, after, c' =>
    c.Trails after.node.span.stop c'
  | .construct _, c, e, c' | .updated .., c, e, c' | .array _, c, e, c' => c.Trails e.span.stop c'
  | .arguments, _, _, _ | .argumentList, _, _, _ | .elements, _, _, _ => True

/-- A node around expressions ends where the last of them does. -/
theorem trails_sequenceNode? {es : List Expr} (h : ∀ e ∈ es.getLast?, c.Trails e.span.stop c') :
    ∀ e ∈ sequenceNode? none es, c.Trails e.span.stop c' := by
  intro e he
  rcases es with _ | ⟨first, _ | ⟨second, rest⟩⟩
  · cases he
  · cases he
    exact h _ rfl
  · cases he
    refine h ((second :: rest).getLastD first) ?_
    rw [List.getLast?_cons_cons, List.getLastD_eq_getLast?, List.getLast?_cons]
    rfl

/-- With parentheses it ends behind the one that closes, or inside. -/
theorem trails_grouped {es : List Expr} (hreaches : c.Reaches c')
    (hclose : c'.rest.head? = some ')') (start : Nat)
    (h : ∀ e ∈ es.getLast?, c.Trails e.span.stop c') :
    ∀ e ∈ sequenceNode? (some ⟨start, (c'.skip 1).position⟩) es,
      c.Trails e.span.stop (c'.skip 1) := by
  intro e he
  rcases es with _ | ⟨first, _ | ⟨second, rest⟩⟩
  · cases he
  · cases he
    exact (h _ rfl).close hclose
  · cases he
    exact (hreaches.trans (c'.reaches_skip 1)).trails

/-- A name ends where it has been read. -/
theorem trails_propertyName {e : Expr} (h : Leaf.propertyName c.pastBlanks = .ok e c') :
    c.Trails e.span.stop c' := by
  obtain ⟨-, rfl, rfl⟩ := Leaf.propertyName_eq_ok.1 h
  have hpass := c.pastBlanks.passes_leadingWord
  have hreaches := (c.reaches_pastBlanks.trans hpass.reaches).trails
  rwa [hpass.position_eq] at hreaches

/-- Whatever is read ends before blanks and parentheses that close. -/
theorem Derives.trailsOff (h : Derives depth p c v c') : TrailsOff p c v c' := by
  induction h with
  | @ungrouped _ c c' es _ ih =>
    exact fun e he => (trails_sequenceNode? ih e he).from c.reaches_pastBlanks
  | @grouped _ c c' es _ hderives hclose _ ih =>
    intro e he
    exact (trails_grouped hderives.reaches hclose _ ih e he).from (c.reaches_pastBlanks_skip 1)
  | @lastExpression _ c c' e? _ _ _ _ ih =>
    intro e he
    cases e? with
    | none => cases he
    | some e₁ =>
      obtain rfl : e₁ = e := Option.some.inj he
      exact (ih e₁ rfl).pastBlanks
  | @moreExpressions _ c c₁ c' e es _ he _ hes _ ih =>
    intro last hlast
    -- The last expression is one of those behind the comma, as there is at least one.
    have hne := hes.expressions_ne_nil
    rw [List.getLast?_cons] at hlast
    obtain ⟨x, hx⟩ : ∃ x, es.getLast? = some x := ⟨_, List.getLast?_eq_some_getLast hne⟩
    rw [hx] at hlast
    obtain rfl : x = last := Option.some.inj hlast
    exact (ih x hx).from (he.reaches.trans (c₁.reaches_pastBlanks_skip 1))
  | expression _ ih => exact ih
  | @unconditional _ c c' operands? _ _ ih =>
    intro e he
    obtain ⟨climbed, hclimbed, rfl⟩ := Option.map_eq_some_iff.1 he
    exact (ih climbed hclimbed).pastBlanks
  | @conditional _ c c₁ c₂ c' test consequent alternate htest _ hconsequent _ _ _ _ ih =>
    rintro _ ⟨⟩
    have hbranches := hconsequent.reaches.trans (c₂.reaches_pastBlanks_skip 1)
    have htest' := htest.reaches.trans (c₁.reaches_pastBlanks_skip 1)
    exact (ih alternate rfl).from (htest'.trans hbranches)
  | operands _ ih => exact ih
  | noOperand => exact nofun
  | @climb _ c c₁ c' _ left climbed _ _ ihleft ih =>
    rintro _ ⟨⟩
    exact ih c ((ihleft left rfl).from c.reaches_pastBlanks)
  | noInfix => exact fun c₀ hleft => hleft.pastBlanks
  | @joined _ c c₁ c' _ left right climbed _ operator _ _ _ _ _ _ ihright ih =>
    intro c₀ hleft
    refine ih c₀ ?_
    -- The joined node ends where its right operand does.
    rw [span_join]
    exact (ihright right rfl).from (hleft.reaches_skip _)
  | unary _ ih => exact ih
  | @unaryOperator _ c c' operator argument _ _ ih =>
    rintro _ ⟨⟩
    exact (ih argument rfl).from (c.reaches_pastBlanks_skip _)
  | @noUnaryOperator _ c c' _ _ _ ih => exact fun e he => (ih e he).from c.reaches_pastBlanks
  | noToken => exact nofun
  | @token _ c c₁ c' primary run _ _ _ ihprimary ihrun =>
    rintro _ ⟨⟩
    rw [span_finish]
    exact (ihrun c ((ihprimary primary rfl).from c.reaches_pastBlanks)).inlineBlanks
  | @trailingUpdate _ c c₁ c' primary run operator hprimary hrun _ _ _ _ =>
    rintro _ ⟨⟩
    -- The node ends right behind its operator, so nothing trails off.
    refine Reaches.trails ?_
    exact c.reaches_pastBlanks.trans (hprimary.reaches.trans (hrun.reaches.trans
      ((c'.reaches_skipBlanks false).trans (Cursor.reaches_skip _ _))))
  | noLink => exact fun c₀ hbefore => hbefore
  | @linkAccess _ c c₁ c' before between after access _ _ _ ihbetween ih =>
    exact fun c₀ hbefore => ih c₀ (ihbetween.from (hbefore.reaches_skip _))
  | @linkCall _ c c₁ c' before between after _ _ _ _ ihbetween ih =>
    exact fun c₀ hbefore => ih c₀ (ihbetween.from (hbefore.reaches_skip _))
  | member _ ih => exact ih
  | @computedLast _ c c' before access property _ hproperty _ _ _ =>
    exact (hproperty.reaches.trans (c'.reaches_pastBlanks_skip 1)).trails
  | @computedNext _ c c₁ c' before after access next property _ hproperty _ _ _ _ ih =>
    have hclosed := hproperty.reaches.trans (c₁.reaches_pastBlanks_skip 1)
    exact ih.from (hclosed.trans (Cursor.reaches_pastBlanks_skip _ _))
  | @namedLast _ c c' before access property _ _ hname _ =>
    show c.Trails property.span.stop c'
    exact trails_propertyName hname
  | @namedNext _ c c₁ c' before after access next property _ _ hname _ _ ih =>
    have hnamed := c.reaches_pastBlanks.trans (Leaf.reaches_propertyName hname)
    exact ih.from (hnamed.trans (c₁.reaches_pastBlanks_skip _))
  | @accessedCall _ c c' _ _ _ _ _ _ ih =>
    exact ih.from (c.reaches_pastBlanks_skip 1)
  | callLast hes _ _ => exact hes.reaches.trails
  | @callNext _ c c₁ c' _ _ _ next _ hes _ _ _ ih =>
    exact ih.from (hes.reaches.trans (c₁.reaches_pastBlanks_skip _))
  | primary _ ih => exact ih
  | group _ _ ih => exact ih
  | @leadingUpdate _ c c' _ e _ _ ih =>
    rintro _ ⟨⟩
    exact ih.from (c.reaches_skip _)
  | @new _ c c' e _ _ ih =>
    rintro _ ⟨⟩
    exact ih.from (c.reaches_skip _)
  | @word _ c word hword _ _ =>
    rintro _ ⟨⟩
    have hpass : c.Passes word (c.skip word.length) := hword ▸ c.passes_leadingWord
    have htrails := hpass.reaches.trails
    rw [hpass.position_eq] at htrails
    rwa [span_ofWord]
  | number hstart hnumber =>
    rintro _ ⟨⟩
    rw [span_number hstart hnumber]
    exact (Leaf.reaches_number hstart hnumber).trails
  | @arrayLiteral _ c c' e _ _ ih =>
    rintro _ ⟨⟩
    exact ih.from (c.reaches_skip _)
  | noPrimary => exact nofun
  | @construct _ c c₁ c' _ primary callee _ _ _ _ ihprimary ihcallee =>
    exact ihcallee c ((ihprimary primary rfl).from c.reaches_pastBlanks)
  | noCalleeLink => exact fun c₀ hbefore => hbefore
  | @calleeAccess _ c c₁ c' before between access callee _ _ _ ihbetween ih =>
    exact fun c₀ hbefore => ih c₀ (ihbetween.from (hbefore.reaches_skip _))
  | @calleeArguments _ c c' before es _ _ hes _ =>
    exact fun c₀ hbefore => ((hbefore.reaches_skip 1).trans hes.reaches).trails
  | @updated _ c c' _ _ argument _ _ ih => exact ih argument rfl
  | array hes _ _ => exact (hes.reaches.trans (Cursor.reaches_skip _ _)).trails
  | arguments | lastArgument | moreArguments | lastElement | moreElements => trivial

/-! ## The text of a node -/

/-- What is read to the end of a text is the text of the node between two edges. -/
theorem Derives.exists_edges {e : Expr} (h : Derives depth (.sequence false) c (some e) c')
    (hend : c'.pastBlanks.rest = []) (hlt : e.span.start < e.span.stop) :
    ∃ before piece after, c.rest = before ++ (piece ++ after) ∧
      IsEdge '(' before ∧ IsEdge ')' after ∧ c.position + utf8Size before = e.span.start ∧
      e.span.start + utf8Size piece = e.span.stop := by
  obtain ⟨before, c₁, hpass, hbefore, hstart⟩ := h.leads e rfl
  have htrails : c.Trails e.span.stop c' := h.trailsOff e rfl
  obtain ⟨after, c₂, ⟨n, rfl⟩, hpass', hafter, hstop⟩ := htrails.pastBlanks
  have hstart' := hpass.position_eq
  have hstop' : (c.skip n).position = c.position + utf8Size (c.rest.take n) := rfl
  have hrest : (c.skip n).rest = after := by
    rw [hpass'.rest_eq, hend, List.append_nil]
  have hsplit : before ++ c₁.rest = c.rest.take n ++ after := by
    rw [← hpass.rest_eq, ← hrest, skip_rest, List.take_append_drop]
  rcases List.append_eq_append_iff.1 hsplit with ⟨piece, htake, hpiece⟩ | ⟨piece, htake, -⟩
  · refine ⟨before, piece, after, ?_, hbefore, hafter, by omega, ?_⟩
    · rw [hpass.rest_eq, hpiece]
    · rw [htake, utf8Size_append] at hstop'
      omega
  · have hsize := congrArg utf8Size htake
    rw [utf8Size_append] at hsize
    omega

end Grammar

end Estree
