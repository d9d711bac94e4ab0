import Estree.Proofs.Expr.Spelled
import Estree.Proofs.Grammar.Completeness
import Estree.Proofs.Grammar.Starts
import Estree.Proofs.Text.Residue

/-!
# What is read is what is spelled

Of the text that a production passes, what the tree spells is left, and nothing else
(`Derives.accounts`). The induction runs from the front of the text to its end: what a production
leaves is put before whatever stays of the text after it. A point that is passed on to a call, as in
`a.(x)`, is the only character that is left out of the text for a reason of the grammar; that it
does not stand right after `?` is known because an access goes on after an expression, and so
`Continues` asks for no more than that.

`Accounts` says for each production how it accounts for the text that it passes:

> an expression contributes what it spells, wherever it begins, and if there is none, only blanks
> have been passed (`AccountsFor`);
> a list contributes its expressions with commas between them (`AccountsForAll`);
> what goes on with a run or with operands continues a text by so much as the tree has grown.

For commas the reader has to agree with the text on whether they say something. A comma that it
reads before an expression does say something, as the text behind it begins an operand and does not
close (`isIdleComma_of_startsOperand`). A comma that may stand at the end of a list says nothing, as
it is read only if the list closes behind it. In an array each comma is an element of its own, and
whether the next one makes a hole is the flag that `residue` carries.
-/

open Estree.Expr

namespace Estree

open Text

namespace Grammar

variable {c c₁ c' : Cursor} {e : Expr} {e? : Option Expr} {es : List Expr}

/-! ## One expression or none -/

/-- What the text leaves is what the expression spells; without one only blanks are passed. -/
def AccountsFor (c : Cursor) (e? : Option Expr) (c' : Cursor) : Prop :=
  match e? with
  | none => Skips c.rest c'.rest
  | some e => Contributes c.rest e.spelled c'.rest

/-- The same for expressions with commas between them. -/
def AccountsForAll (c : Cursor) (es : List Expr) (c' : Cursor) : Prop :=
  (es = [] → Skips c.rest c'.rest) ∧ (es ≠ [] → Contributes c.rest (spelledList es) c'.rest)

/-- The cursor skips blanks only. -/
theorem skips_skipBlanks (c : Cursor) (lineEnds : Bool) :
    Skips c.rest (c.skipBlanks lineEnds).rest := by
  cases lineEnds with
  | true =>
    exact ⟨c.rest.takeWhile isBlank, List.takeWhile_append_dropWhile.symm,
      fun x hx => List.all_eq_true.1 List.all_takeWhile x hx⟩
  | false =>
    refine ⟨c.rest.takeWhile isInlineBlank, List.takeWhile_append_dropWhile.symm, fun x hx => ?_⟩
    exact isBlank_of_isInlineBlank (List.all_eq_true.1 List.all_takeWhile x hx)

/-- The same for blanks with line ends. -/
theorem skips_pastBlanks (c : Cursor) : Skips c.rest c.pastBlanks.rest :=
  skips_skipBlanks c true

/-- Blanks may come first. -/
theorem AccountsFor.before (h : AccountsFor c₁ e? c') (hskips : Skips c.rest c₁.rest) :
    AccountsFor c e? c' := by
  cases e? with
  | none => exact hskips.trans h
  | some e => exact hskips.contributes h

/-- Blanks may come last. -/
theorem AccountsFor.after (h : AccountsFor c e? c₁) (hskips : Skips c₁.rest c'.rest) :
    AccountsFor c e? c' := by
  cases e? with
  | none => exact Skips.trans h hskips
  | some e => exact Contributes.skips h hskips

/-- One expression or none, as a list. -/
theorem AccountsFor.all (h : AccountsFor c e? c') : AccountsForAll c e?.toList c' := by
  cases e? with
  | none => exact ⟨fun _ => h, fun hne => absurd rfl hne⟩
  | some e =>
    refine ⟨nofun, fun _ => ?_⟩
    show Contributes c.rest (spelledList [e]) c'.rest
    rw [spelledList_singleton]
    exact h

/-- A node around expressions spells what they do. -/
theorem AccountsForAll.node (h : AccountsForAll c es c') (grouped? : Option Span) :
    AccountsFor c (sequenceNode? grouped? es) c' := by
  match es, h with
  | [], h => exact h.1 rfl
  | [e], h =>
    have hone : Contributes c.rest (spelledList [e]) c'.rest := h.2 (List.cons_ne_nil e [])
    rw [spelledList_singleton] at hone
    exact hone
  | first :: second :: rest, h => exact h.2 (List.cons_ne_nil first _)

/-! ## Where commas stand -/

/-- Before an operand a comma is not idle. -/
theorem isIdleComma_of_startsOperand {text : List Char} (h : StartsOperand (text.dropWhile isBlank))
    (opened : Bool) : isIdleComma opened text = false := by
  have hclose : ∀ x ∈ nextSolid? text, x ∉ [')', ']'] := h.not_mem (by decide)
  unfold isIdleComma
  cases hnext : nextSolid? text with
  | none => rfl
  | some x =>
    have hx := hclose x hnext
    simp only [List.mem_cons, List.not_mem_nil, or_false, not_or] at hx
    simp [hx]

/-- Where expressions are read, a comma before them is not idle. -/
theorem Derives.isIdleComma_expressions {depth : Nat} {isFirst : Bool}
    (h : Derives depth (.expressions isFirst) c es c') (hne : es ≠ []) (opened : Bool) :
    isIdleComma opened c.rest = false := by
  cases h with
  | @lastExpression _ _ _ e? _ he _ _ =>
    cases e? with
    | none => exact absurd rfl hne
    | some e => exact isIdleComma_of_startsOperand he.starts opened
  | moreExpressions he _ _ => exact isIdleComma_of_startsOperand he.starts opened

/-! ## All productions -/

/-- What a production leaves of the text that it passes. -/
def Accounts : (p : Production) → Cursor → p.Yield → Cursor → Prop
  | .sequence _, c, e?, c' | .expression, c, e?, c' | .conditional, c, e?, c' | .unary, c, e?, c'
  | .unaryForm, c, e?, c' | .token, c, e?, c' | .primary, c, e?, c' | .primaryForm, c, e?, c' =>
    AccountsFor c e? c'
  | .expressions _, c, es, c' => AccountsForAll c es c'
  | .operands _, c, climbed?, c' | .climb _, c, climbed?, c' =>
    AccountsFor c (climbed?.map (·.expr)) c'
  | .infixes _ left _, c, climbed, c' =>
    ∃ piece, climbed.expr.spelled = left.expr.spelled ++ piece ∧ Continues c.rest piece c'.rest
  | .construct _, c, e, c' =>
    ∃ piece, e.spelled = "new".toList ++ piece ∧ Contributes c.rest piece c'.rest
  | .updated operator _, c, e, c' =>
    ∃ piece, e.spelled = operator.text.toList ++ piece ∧ Contributes c.rest piece c'.rest
  | .array _, c, e, c' =>
    ∃ piece, e.spelled = '[' :: (piece ++ [']']) ∧ Fills c.rest piece (']' :: c'.rest)
  | .links before, c, after, c' =>
    ∃ piece, after.node.spelled = before.node.spelled ++ piece ∧ Continues c.rest piece c'.rest
  | .member before access, c, after, c' | .accesses before access, c, after, c' =>
    ∃ piece, after.node.spelled = before.node.spelled ++ piece ∧
      Continues (access.text.toList ++ c.rest) piece c'.rest
  | .call before optional, c, after, c' =>
    ∃ piece, after.node.spelled =
        before.node.spelled ++ ((if optional then ['?', '.'] else []) ++ piece) ∧
      Contributes c.rest piece c'.rest
  | .calleeLinks before, c, callee, c' =>
    ∃ piece, callee.links.node.spelled = before.node.spelled ++ piece ∧
      Continues c.rest (piece ++ spelledList callee.arguments) c'.rest
  | .arguments, c, es, c' => Contributes c.rest (spelledList es) c'.rest
  | .argumentList, c, es, c' =>
    c'.rest.head? = some ')' →
      isIdleComma false c.rest = es.isEmpty ∧ Contributes c.rest (spelledList es) c'.rest
  | .elements, c, elements, c' =>
    c'.rest.head? = some ']' →
      isIdleComma true c.rest = false ∧ isIdleComma false c.rest = elements.isEmpty ∧
        Fills c.rest (spelledSlots elements) c'.rest

/-- An update spells itself. -/
theorem contributes_updateOperator (operator : UpdateOperator) (rest : List Char) :
    Contributes (operator.text.toList ++ rest) operator.text.toList rest := by
  cases operator with
  | increment => exact contributes_plain (by decide) (by decide)
  | decrement => exact contributes_plain (by decide) (by decide)

/-- A word is left as it is. -/
theorem contributes_word {word : List Char} (h : leadingWord c.rest = word) (hne : word ≠ []) :
    Contributes c.rest word (c.skip word.length).rest := by
  obtain ⟨rest, hrest⟩ := leadingWord_isPrefixOf c.rest
  rw [h] at hrest
  rw [Cursor.skip_length_rest hrest.symm, ← hrest]
  exact contributes_plain hne fun x hx =>
    isPlain_of_isIdentifierPart (isIdentifierPart_of_mem_leadingWord (h ▸ hx))

/-- After `(` the arguments of a call follow. -/
theorem contributes_open {piece rest : List Char} (hopen : c.pastBlanks.rest.head? = some '(')
    (h : Contributes (c.pastBlanks.skip 1).rest piece rest) : Contributes c.rest piece rest := by
  refine (skips_pastBlanks c).contributes ?_
  rw [Cursor.rest_eq_cons_skip hopen]
  exact h.group

/-- Parentheses around what is passed are not left. -/
theorem contributes_close {text piece : List Char} (h : Contributes text piece c.rest)
    (hclose : c.rest.head? = some ')') : Contributes text piece (c.skip 1).rest := by
  rw [Cursor.rest_eq_cons_skip hclose] at h
  have htail : Continues ([')'] ++ (c.skip 1).rest) [] (c.skip 1).rest :=
    (contributes_paren (Or.inr rfl)).continues
  have happend := h.trans htail
  rwa [List.append_nil] at happend

/-- A separator is left between two expressions. -/
theorem continues_separator {x : Char} {piece rest : List Char} (hx : IsLasting x)
    (hhead : c.pastBlanks.rest.head? = some x)
    (h : Contributes (c.pastBlanks.skip 1).rest piece rest) :
    Continues c.rest (x :: piece) rest := by
  refine (skips_pastBlanks c).continues ?_
  rw [Cursor.rest_eq_cons_skip hhead]
  have hone : ∀ y ∈ [x], IsLasting y := fun y hy => List.mem_singleton.1 hy ▸ hx
  exact (h.after hone).continues

/-- Before a closing bracket nothing is left. -/
theorem contributes_closing {x : Char} (hx : x = ')' ∨ x = ']') (hskips : Skips c.rest c'.rest)
    (hclose : c'.pastBlanks.rest.head? = some x) : Contributes c.rest [] c'.pastBlanks.rest := by
  have hrest := hskips.trans (skips_pastBlanks c')
  rw [Cursor.rest_eq_cons_skip hclose] at hrest ⊢
  exact hrest.contributes_close hx

/-- Before a parenthesis that closes, a comma says nothing. -/
theorem isIdleComma_of_nextSolid? {text : List Char} {opened : Bool}
    (h : nextSolid? text = some ')') : isIdleComma opened text = true := by
  rw [isIdleComma, h]
  rfl

/-- A comma that is passed after an expression. -/
theorem continues_pastComma {piece rest : List Char}
    (hhead : c.pastBlanks.rest.head? = some ',')
    (h : Continues (',' :: (c.pastBlanks.skip 1).rest) piece rest) :
    Continues c.rest piece rest := by
  refine (skips_pastBlanks c).continues ?_
  rw [Cursor.rest_eq_cons_skip hhead]
  exact h

/-- An access is left where it is taken. -/
theorem continues_access {access : Access} {piece rest : List Char}
    (haccess : Token.access? c.pastBlanks.rest = some access)
    (h : Continues (access.text.toList ++ (c.pastBlanks.skip access.text.length).rest) piece rest) :
    Continues c.rest piece rest := by
  refine (skips_pastBlanks c).continues ?_
  obtain ⟨text, htext⟩ := Token.access?_eq_some haccess
  have hskip : (c.pastBlanks.skip access.text.length).rest = text := Cursor.skip_length_rest htext
  rw [htext, ← hskip]
  exact h

/-- An access by an expression continues by its brackets and the expression. -/
theorem continues_computed {access : Access} {property : Expr} (hcomputed : access.computed = true)
    (h : Contributes c.rest property.spelled c₁.rest)
    (hclose : c₁.pastBlanks.rest.head? = some ']') :
    Continues (access.text.toList ++ c.rest)
      (access.text.toList ++ (property.spelled ++ if access.computed then [']'] else []))
      (c₁.pastBlanks.skip 1).rest := by
  have hbracket : Continues c₁.rest [']'] (c₁.pastBlanks.skip 1).rest := by
    refine (skips_pastBlanks c₁).continues ?_
    rw [Cursor.rest_eq_cons_skip hclose]
    exact contributes_bracket.continues
  rw [hcomputed]
  exact ((h.trans hbracket).after (isLasting_access access)).continues

/-- An access by a name continues by the point and the name. -/
theorem continues_named {access : Access} {property : Expr} (hcomputed : access.computed = false)
    (h : Leaf.propertyName c.pastBlanks = .ok property c₁) :
    Continues (access.text.toList ++ c.rest)
      (access.text.toList ++ (property.spelled ++ if access.computed then [']'] else []))
      c₁.rest := by
  obtain ⟨hne, rfl, rfl⟩ := Leaf.propertyName_eq_ok.1 h
  have hword := (skips_pastBlanks c).contributes (contributes_word rfl hne)
  rw [hcomputed]
  show Continues _ (access.text.toList ++ ((String.ofList _).toList ++ [])) _
  rw [String.toList_ofList, List.append_nil]
  exact (hword.after (isLasting_access access)).continues

/-- The point before a call is left only if the call is optional. -/
theorem continues_accessedCall {access : Access} {piece rest : List Char}
    (hcomputed : access.computed = false) (hopen : c.pastBlanks.rest.head? = some '(')
    (h : Contributes (c.pastBlanks.skip 1).rest piece rest) :
    Continues (access.text.toList ++ c.rest)
      ((if access.optional then ['?', '.'] else []) ++ piece) rest := by
  have hcall := contributes_open hopen h
  rcases access with ⟨_ | _, _ | _⟩
  · intro out hout
    exact sheds_point hopen (hcall false false out hout)
  · cases hcomputed
  · exact (hcall.after (isLasting_access ⟨true, false⟩)).continues
  · cases hcomputed

/-- What a production passes of the text leaves what its tree spells. -/
theorem Derives.accounts {depth : Nat} {p : Production} {v : p.Yield}
    (h : Derives depth p c v c') : Accounts p c v c' := by
  induction h with
  | @ungrouped _ c c' es _ ih =>
    have hes : AccountsForAll c.pastBlanks es c' := ih
    exact (hes.node none).before (skips_pastBlanks c)
  | @grouped _ c c' es hopen _ hclose hne ih =>
    have hes : Contributes (c.pastBlanks.skip 1).rest (spelledList es) c'.rest := ih.2 hne
    have hgroup := contributes_open hopen (contributes_close hes hclose)
    have hall : AccountsForAll c es (c'.skip 1) := ⟨fun hnil => absurd hnil hne, fun _ => hgroup⟩
    exact hall.node _
  | @lastExpression _ c c' e? _ _ _ _ ih =>
    have he : AccountsFor c e? c' := ih
    exact (he.after (skips_pastBlanks c')).all
  | @moreExpressions _ c c₁ c' e es _ _ hcomma hrest ihe ihes =>
    have he : Contributes c.rest e.spelled c₁.rest := ihe
    have hne := hrest.expressions_ne_nil
    -- An operand begins behind the comma, so the comma separates and is kept.
    have hidle := hrest.isIdleComma_expressions hne false
    have hes : Contributes (c₁.pastBlanks.skip 1).rest (spelledList es) c'.rest := ihes.2 hne
    refine ⟨nofun, fun _ => ?_⟩
    rw [spelledList_cons hne]
    exact he.trans (continues_pastComma hcomma (continues_comma hidle hes))
  | expression _ ih => exact ih
  | @unconditional _ c c' operands? _ _ ih =>
    have hoperands : AccountsFor c (operands?.map (·.expr)) c' := ih
    exact hoperands.after (skips_pastBlanks c')
  | @conditional _ c c₁ c₂ c' test consequent alternate _ hquestion _ hcolon _ ihtest ihconsequent
      ihalternate =>
    have htest : Contributes c.rest test.expr.spelled c₁.rest := ihtest
    have hconsequent : Contributes (c₁.pastBlanks.skip 1).rest consequent.spelled c₂.rest :=
      ihconsequent
    have halternate : Contributes (c₂.pastBlanks.skip 1).rest alternate.spelled c'.rest :=
      ihalternate
    have htail := hconsequent.trans (continues_separator (by decide) hcolon halternate)
    exact htest.trans (continues_separator (by decide) hquestion htail)
  | operands _ ih => exact ih
  | @noOperand _ c c' _ _ ih =>
    have hskips : Skips c.pastBlanks.rest c'.rest := ih
    exact (skips_pastBlanks c).trans hskips
  | @climb _ c c₁ c' _ left climbed _ _ ihleft ih =>
    have hleft : Contributes c.pastBlanks.rest left.spelled c₁.rest := ihleft
    -- What is climbed is spelled as its left operand is, with a piece behind it.
    obtain ⟨piece, hpiece, hcontinues⟩ := ih
    show Contributes c.rest climbed.expr.spelled c'.rest
    rw [hpiece]
    exact (skips_pastBlanks c).contributes (hleft.trans hcontinues)
  | @noInfix _ c _ left _ _ =>
    exact ⟨[], (List.append_nil _).symm, (Continues.refl _).skips (skips_pastBlanks c)⟩
  | @joined _ c c₁ c' _ left right climbed _ operator hoperator _ _ _ _ _ ihright ih =>
    have hright : Contributes (c.pastBlanks.skip operator.text.length).rest right.expr.spelled
        c₁.rest := ihright
    obtain ⟨piece, hpiece, hcontinues⟩ := ih
    obtain ⟨rest, hrest⟩ := Token.infixOperator?_eq_some hoperator
    have hskip : (c.pastBlanks.skip operator.text.length).rest = rest :=
      Cursor.skip_length_rest hrest
    rw [hskip] at hright
    have hjoin : Contributes (operator.text.toList ++ rest)
        (operator.text.toList ++ right.expr.spelled) c₁.rest :=
      hright.after (isLasting_infixOperator operator)
    refine ⟨operator.text.toList ++ right.expr.spelled ++ piece, ?_, ?_⟩
    · rw [hpiece]
      show (operator.join left.expr right.expr).spelled ++ piece = _
      rw [spelled_join, List.append_assoc]
    · refine (skips_pastBlanks c).continues ?_
      rw [hrest]
      exact hjoin.continues.trans hcontinues
  | unary _ ih => exact ih
  | @unaryOperator _ c c' operator argument hoperator _ ih =>
    have hargument : Contributes (c.pastBlanks.skip operator.text.length).rest argument.spelled
        c'.rest := ih
    obtain ⟨rest, hrest⟩ := Token.unaryOperator?_eq_some hoperator
    have hskip : (c.pastBlanks.skip operator.text.length).rest = rest :=
      Cursor.skip_length_rest hrest
    rw [hskip] at hargument
    refine (skips_pastBlanks c).contributes ?_
    rw [hrest]
    exact hargument.after (isLasting_unaryOperator operator)
  | @noUnaryOperator _ c c' e? _ _ ih =>
    have he : AccountsFor c.pastBlanks e? c' := ih
    exact he.before (skips_pastBlanks c)
  | @noToken _ c c' _ ih =>
    have hskips : Skips c.pastBlanks.rest c'.rest := ih
    exact (skips_pastBlanks c).trans hskips
  | @token _ c c₁ c' primary run _ _ _ ihprimary ihrun =>
    have hprimary : Contributes c.pastBlanks.rest primary.spelled c₁.rest := ihprimary
    obtain ⟨piece, hpiece, hcontinues⟩ := ihrun
    show Contributes c.rest run.finish.spelled (c'.skipBlanks false).rest
    -- A chain around the run has no spelling of its own.
    rw [spelled_finish, hpiece]
    have hrun := hprimary.trans hcontinues
    exact (skips_pastBlanks c).contributes (hrun.skips (skips_skipBlanks c' false))
  | @trailingUpdate _ c c₁ c' primary run operator _ _ hoperator _ ihprimary ihrun =>
    have hprimary : Contributes c.pastBlanks.rest primary.spelled c₁.rest := ihprimary
    obtain ⟨piece, hpiece, hcontinues⟩ := ihrun
    obtain ⟨rest, hrest⟩ := Token.updateOperator?_eq_some hoperator
    have hskip : ((c'.skipBlanks false).skip operator.text.length).rest = rest :=
      Cursor.skip_length_rest hrest
    show Contributes c.rest (run.finish.spelled ++ operator.text.toList)
      ((c'.skipBlanks false).skip operator.text.length).rest
    rw [spelled_finish, hpiece, hskip]
    have hrun := (hprimary.trans hcontinues).skips (skips_skipBlanks c' false)
    rw [hrest] at hrun
    have hupdate := hrun.trans (contributes_updateOperator operator rest).continues
    exact (skips_pastBlanks c).contributes hupdate
  | noLink => exact ⟨[], (List.append_nil _).symm, Continues.refl _⟩
  | @linkAccess _ c c₁ c' before between after access haccess _ _ ihbetween ih =>
    obtain ⟨piece, hpiece, hbetween⟩ := ihbetween
    obtain ⟨piece', hpiece', hafter⟩ := ih
    refine ⟨piece ++ piece', ?_, (continues_access haccess hbetween).trans hafter⟩
    rw [hpiece', hpiece, List.append_assoc]
  | @linkCall _ c c₁ c' before between after _ hopen _ _ ihbetween ih =>
    obtain ⟨piece, hpiece, hbetween⟩ := ihbetween
    obtain ⟨piece', hpiece', hafter⟩ := ih
    have hcall := contributes_open hopen hbetween
    refine ⟨piece ++ piece', ?_, hcall.continues.trans hafter⟩
    rw [hpiece', hpiece, List.append_assoc]
    rfl
  | member _ ih => exact ih
  | @computedLast _ c c' before access property hcomputed _ hclose _ ih =>
    have hproperty : Contributes c.rest property.spelled c'.rest := ih
    exact ⟨_, spelled_memberLinks .., continues_computed hcomputed hproperty hclose⟩
  | @computedNext _ c c₁ c' before after access next property hcomputed _ hclose hnext _ ihproperty
      ih =>
    have hproperty : Contributes c.rest property.spelled c₁.rest := ihproperty
    obtain ⟨piece, hpiece, hafter⟩ := ih
    refine ⟨_ ++ piece, ?_,
      (continues_computed hcomputed hproperty hclose).trans (continues_access hnext hafter)⟩
    rw [hpiece, spelled_memberLinks, List.append_assoc]
  | namedLast hcomputed _ hproperty _ =>
    exact ⟨_, spelled_memberLinks .., continues_named hcomputed hproperty⟩
  | @namedNext _ c c₁ c' before after access next property hcomputed _ hproperty hnext _ ih =>
    obtain ⟨piece, hpiece, hafter⟩ := ih
    refine ⟨_ ++ piece, ?_,
      (continues_named hcomputed hproperty).trans (continues_access hnext hafter)⟩
    rw [hpiece, spelled_memberLinks, List.append_assoc]
  | @accessedCall _ c c' before after access hcomputed hopen _ ih =>
    obtain ⟨piece, hpiece, hafter⟩ := ih
    exact ⟨_, hpiece, continues_accessedCall hcomputed hopen hafter⟩
  | @callLast _ c c' before optional es _ _ ih => exact ⟨_, spelled_callLinks .., ih⟩
  | @callNext _ c c₁ c' before after optional next es _ hnext _ ihes ih =>
    have hes : Contributes c.rest (spelledList es) c₁.rest := ihes
    obtain ⟨piece, hpiece, hafter⟩ := ih
    refine ⟨spelledList es ++ piece, ?_, hes.trans (continues_access hnext hafter)⟩
    rw [hpiece, spelled_callLinks, List.append_assoc, List.append_assoc]
  | @arguments _ c c' es _ hclose ih => exact contributes_close (ih hclose).2 hclose
  | @lastArgument _ c c' e? he _ ih =>
    intro hclose
    -- The comma before a blank argument is idle: the parenthesis follows that closes.
    cases e? with
    | none =>
      have hskips : Skips c.rest c'.rest := ih
      exact ⟨isIdleComma_of_nextSolid? (hskips.nextSolid?_eq.trans hclose),
        contributes_closing (Or.inl rfl) hskips hclose⟩
    | some e =>
      have hone : Contributes c.rest e.spelled c'.rest := ih
      refine ⟨isIdleComma_of_startsOperand he.starts false, ?_⟩
      show Contributes c.rest (spelledList [e]) c'.pastBlanks.rest
      rw [spelledList_singleton]
      exact hone.skips (skips_pastBlanks c')
  | @moreArguments _ c c₁ c' e es he hcomma _ ihe ihes =>
    intro hclose
    have hone : Contributes c.rest e.spelled c₁.rest := ihe
    obtain ⟨hidle, hes⟩ := ihes hclose
    refine ⟨isIdleComma_of_startsOperand he.starts false, ?_⟩
    -- The comma is idle as well if this is the last argument.
    cases es with
    | nil =>
      rw [spelledList_singleton, ← List.append_nil e.spelled]
      exact hone.trans (continues_pastComma hcomma (continues_idleComma hidle hes))
    | cons second rest =>
      rw [spelledList_cons (List.cons_ne_nil second rest)]
      exact hone.trans (continues_pastComma hcomma (continues_comma hidle hes))
  | primary _ ih => exact ih
  | group _ _ ih => exact ih
  | @leadingUpdate _ c c' operator e hoperator _ ih =>
    obtain ⟨piece, hpiece, hcontributes⟩ := ih
    obtain ⟨rest, hrest⟩ := Token.updateOperator?_eq_some hoperator
    have hskip : (c.skip operator.text.length).rest = rest := Cursor.skip_length_rest hrest
    rw [hskip] at hcontributes
    show Contributes c.rest e.spelled c'.rest
    rw [hpiece, hrest]
    exact (contributes_updateOperator operator rest).trans hcontributes.continues
  | @new _ c c' e hword _ ih =>
    obtain ⟨piece, hpiece, hcontributes⟩ := ih
    show Contributes c.rest e.spelled c'.rest
    rw [hpiece]
    exact (contributes_word hword (by decide)).trans hcontributes.continues
  | @word _ c word hword hne _ =>
    show Contributes c.rest (Leaf.ofWord _ (String.ofList word)).spelled (c.skip word.length).rest
    rw [spelled_ofWord, String.toList_ofList]
    exact contributes_word hword hne
  | @number _ c c' e hstart hnumber =>
    obtain ⟨text, decimal, hnumeral, -, hpass, rfl⟩ := Leaf.number_eq_ok hstart hnumber
    show Contributes c.rest (String.ofList text).toList c'.rest
    rw [String.toList_ofList, hpass.rest_eq]
    exact contributes_plain hnumeral.ne_nil fun x hx => isPlain_of_mem_numeral hnumeral hx
  | @arrayLiteral _ c c' e hopen _ ih =>
    obtain ⟨piece, hpiece, hfills⟩ := ih
    show Contributes c.rest e.spelled c'.rest
    rw [hpiece, Cursor.rest_eq_cons_skip hopen]
    exact hfills.brackets
  | noPrimary => exact Skips.refl _
  | @construct _ c c₁ c' _ primary callee _ _ _ _ ihprimary ihcallee =>
    have hprimary : Contributes c.pastBlanks.rest primary.spelled c₁.rest := ihprimary
    obtain ⟨piece, hpiece, hcallee⟩ := ihcallee
    refine ⟨_, rfl, (skips_pastBlanks c).contributes ?_⟩
    rw [hpiece, List.append_assoc]
    exact hprimary.trans hcallee
  | noCalleeLink => exact ⟨[], (List.append_nil _).symm, Continues.refl _⟩
  | @calleeAccess _ c c₁ c' before between access callee haccess _ _ ihbetween ih =>
    obtain ⟨piece, hpiece, hbetween⟩ := ihbetween
    obtain ⟨piece', hpiece', hcallee⟩ := ih
    refine ⟨piece ++ piece', ?_, ?_⟩
    · rw [hpiece', hpiece, List.append_assoc]
    · rw [List.append_assoc]
      exact (continues_access haccess hbetween).trans hcallee
  | @calleeArguments _ c c' before es _ hopen _ ih =>
    exact ⟨[], (List.append_nil _).symm, (contributes_open hopen ih).continues⟩
  | @updated _ c c' operator _ argument _ _ ih => exact ⟨_, rfl, ih⟩
  | @array _ c c' _ elements _ hclose ih =>
    obtain ⟨-, -, hfills⟩ := ih hclose
    rw [Cursor.rest_eq_cons_skip hclose] at hfills
    exact ⟨_, rfl, hfills⟩
  | @lastElement _ c c' e? he _ ih =>
    intro hclose
    -- A blank at the end is no element, and the comma before it is idle.
    cases e? with
    | none =>
      have hskips : Skips c.rest c'.rest := ih
      have hnext : nextSolid? c.rest = some ']' := hskips.nextSolid?_eq.trans hclose
      refine ⟨?_, ?_, (contributes_closing (Or.inr rfl) hskips hclose).fills⟩
      · rw [isIdleComma, hnext]
        rfl
      · rw [isIdleComma, hnext]
        rfl
    | some e =>
      have hone : Contributes c.rest e.spelled c'.rest := ih
      refine ⟨isIdleComma_of_startsOperand he.starts true,
        isIdleComma_of_startsOperand he.starts false, ?_⟩
      show Fills c.rest (spelledSlots [some e]) c'.pastBlanks.rest
      rw [spelledSlots_singleton]
      exact (hone.skips (skips_pastBlanks c')).fills
  | @moreElements _ c c₁ c' e? elements he hcomma _ ihe ih =>
    intro hclose
    obtain ⟨hopened, hidle, hfills⟩ := ih hclose
    -- A hole is spelled by its comma alone.
    cases e? with
    | none =>
      have hskips : Skips c.rest c₁.rest := ihe
      have hnext : nextSolid? c.rest = some ',' := hskips.nextSolid?_eq.trans hcomma
      refine ⟨?_, ?_, ?_⟩
      · rw [isIdleComma, hnext]
        rfl
      · rw [isIdleComma, hnext]
        rfl
      · refine (hskips.trans (skips_pastBlanks c₁)).fills ?_
        rw [Cursor.rest_eq_cons_skip hcomma]
        exact hfills.comma hopened
    | some e =>
      have hone : Contributes c.rest e.spelled c₁.rest := ihe
      refine ⟨isIdleComma_of_startsOperand he.starts true,
        isIdleComma_of_startsOperand he.starts false, Contributes.fills ?_⟩
      -- Behind the last element the comma is idle.
      cases elements with
      | nil =>
        rw [spelledSlots_singleton, ← List.append_nil e.spelled]
        exact hone.trans (continues_pastComma hcomma (hfills.continues_idleComma hidle))
      | cons second rest =>
        rw [spelledSlots_cons (List.cons_ne_nil second rest)]
        exact hone.trans (continues_pastComma hcomma (hfills.continues_comma hidle))

end Grammar

end Estree
