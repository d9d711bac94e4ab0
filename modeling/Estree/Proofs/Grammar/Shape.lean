import Estree.Proofs.Expr.Shape
import Estree.Proofs.Grammar.Reader

/-!
# The shape of what is read

`parseWithin_wellShaped`: every tree that is read is well shaped. `Shaped` says for each production
what holds of its yield. The flag that a run carries is kept equal to what its spine has
(`IsRun.spine`), through accesses and calls alike, so that the one chain that is put around a
complete run has an optional link and no spine outside chains has any.

What is known of a yield depends on where the tree may stand next:

> `IsOperand`: the tree is complete; all of its nodes fit together.
> `IsToken`, `IsPrimary`: besides, what it may begin with. A word of a unary operator is read as a
> name here, so such a tree may not stand where a unary operator would be read.
> `IsRun`: the same for a run that is not yet complete, with its flag.
> `Grows before after`: a run that has grown has the same first word, and is a run again. Growing is
> transitive, so a production of links hands on no more than that its run has grown.

`Derives.shaped` is the induction. Nodes that are put together of operands are operands by what
their kind demands of the nodes right below (`isOperand_of_children`), and the rest is about runs:
one more access (`grows_memberLinks`), one more call (`grows_callLinks`), and the chain around a
complete one (`isToken_finish`).
-/

open Estree.Expr

namespace Estree

namespace Grammar

/-! ## What productions yield -/

/-- The tree is complete and can stand where an operand is read. -/
structure IsOperand (e : Expr) : Prop where
  allFit : e.AllFit
  isFree : e.IsFree

/-- The tree is read at `text` without a look at unary operators, so that one of them may stand
there. -/
structure IsToken (text : List Char) (e : Expr) : Prop where
  allFit : e.AllFit
  name : e.isReserved = false
  spine : e.hasOptionalLink = false
  word : e.opensWithOperator = true → (Token.unaryOperator? text).isSome = true

/-- The tree may be the first part of a run. -/
structure IsPrimary (text : List Char) (e : Expr) : Prop extends IsToken text e where
  grouped : e.isGroupedAfterNew = true → e.opensWithOperator = false

/-- The flag of a run says whether its spine has an optional link. -/
structure IsRun (links : Links) : Prop where
  allFit : links.node.AllFit
  name : links.node.isReserved = false
  spine : links.node.hasOptionalLink = links.hasOptional
  grouped : links.node.isGroupedBeforeLink = true → links.node.opensWithOperator = false

/-- A run that has grown from another one, without a change of its first word. -/
structure Grows (before after : Links) : Prop where
  isRun : IsRun after
  word : after.node.opensWithOperator = before.node.opensWithOperator

/-- What holds of the yield of a production. -/
def Shaped : (p : Production) → Cursor → p.Yield → Prop
  | .sequence _, _, e? | .expression, _, e? | .conditional, _, e? => ∀ e ∈ e?, IsOperand e
  | .expressions _, _, es | .arguments, _, es | .argumentList, _, es => ∀ e ∈ es, IsOperand e
  | .operands _, _, climbed? | .climb _, _, climbed? => ∀ x ∈ climbed?, IsOperand x.expr
  | .infixes _ left _, _, climbed => IsOperand left.expr → IsOperand climbed.expr
  | .unary, _, e? | .unaryForm, _, e? => ∀ e ∈ e?, IsOperand e
  | .token, c, e? => ∀ e ∈ e?, IsToken c.pastBlanks.rest e
  | .primary, c, e? | .primaryForm, c, e? => ∀ e ∈ e?, IsPrimary c.rest e
  | .links before, _, after | .member before _, _, after | .accesses before _, _, after =>
    IsRun before → Grows before after
  | .call before optional, _, after =>
    ∀ hasOptional, (hasOptional || optional) = (before.hasOptional || optional) →
      IsRun ⟨before.node, hasOptional⟩ → Grows before after
  | .construct _, _, e | .updated .., _, e | .array _, _, e => IsOperand e
  | .calleeLinks before, _, callee =>
    IsRun before → Grows before callee.links ∧ ∀ e ∈ callee.arguments, IsOperand e
  | .elements, _, elements => ∀ e, some e ∈ elements → IsOperand e

variable {c : Cursor} {text : List Char} {e : Expr} {es : List Expr} {before after : Links}

/-- An operand in parentheses may be the first part of a run. -/
theorem IsOperand.isPrimary (h : IsOperand e) : IsPrimary text e where
  allFit := h.allFit
  name := h.isFree.name
  spine := h.isFree.spine
  word hword := by
    rw [h.isFree.word] at hword
    cases hword
  grouped _ := h.isFree.word

/-- A token is an operand where no unary operator stands. -/
theorem IsToken.isOperand (h : IsToken text e) (hop : Token.unaryOperator? text = none) :
    IsOperand e := by
  refine ⟨h.allFit, h.name, h.spine, Bool.eq_false_iff.2 fun hword => ?_⟩
  have hsome := h.word hword
  rw [hop] at hsome
  cases hsome

/-- The first part of a run is a run without an optional link. -/
theorem IsPrimary.isRun (h : IsPrimary text e) : IsRun ⟨e, false⟩ := by
  refine ⟨h.allFit, h.name, h.spine, fun hgrouped => h.grouped ?_⟩
  rcases Bool.or_eq_true_iff.1 hgrouped with hchain | hlevel
  · exact Bool.or_eq_true_iff.2 (Or.inl (Bool.or_eq_true_iff.2 (Or.inl hchain)))
  · exact Bool.or_eq_true_iff.2 (Or.inr hlevel)

/-! ## Nodes put together -/

/-- A node whose parts are all operands. -/
theorem isOperand_of_children (hshape : e.HasShape) (hname : e.isReserved = false)
    (hspine : e.hasOptionalLink = false) (hword : e.opensWithOperator = false)
    (hchildren : ∀ x ∈ e.children, IsOperand x) (hdetached : e.detached ⊆ e.children) :
    IsOperand e := by
  refine ⟨allFit_of_fits ⟨hshape, ?_, ?_, ?_⟩ fun x hx => (hchildren x hx).allFit,
    hname, hspine, hword⟩
  · intro x hx
    exact (hchildren x (mem_children_of_mem_operands hx)).isFree.name
  · intro x hx
    exact (hchildren x (hdetached hx)).isFree.spine
  · intro x hx
    have hoperand := mem_children_of_mem_operands (mem_operands_of_mem_standalone hx)
    exact (hchildren x hoperand).isFree.word

/-- The node around expressions is complete if they are. -/
theorem isOperand_sequenceNode? {grouped? : Option Span} (hes : ∀ x ∈ es, IsOperand x) :
    ∀ e ∈ sequenceNode? grouped? es, IsOperand e := by
  intro e he
  rcases es with _ | ⟨first, _ | ⟨second, rest⟩⟩
  · cases he
  · cases he
    exact hes _ (List.mem_cons_self ..)
  · cases he
    refine isOperand_of_children ?_ rfl rfl rfl hes (List.Subset.refl _)
    exact Nat.le_add_left _ _

/-- Joined operands are complete if both are. -/
theorem isOperand_join {operator : InfixOperator} {left right : Expr} (hleft : IsOperand left)
    (hright : IsOperand right) : IsOperand (operator.join left right) := by
  have hchildren : ∀ x ∈ [left, right], IsOperand x := by
    intro x hx
    rcases List.mem_cons.1 hx with rfl | hx
    · exact hleft
    · obtain rfl := List.mem_singleton.1 hx
      exact hright
  cases operator with
  | binary operator | logical operator =>
    exact isOperand_of_children trivial rfl rfl rfl hchildren (List.Subset.refl _)

/-- A member access makes a run grow, by a name or by what has been read between brackets. -/
theorem grows_memberLinks {property : Expr} {access : Access} {stop : Nat} (h : IsRun before)
    (hcomputed : access.computed = true → IsOperand property)
    (hnamed : access.computed = false →
      property.isIdentifier = true ∧ property.AllFit) :
    Grows before (memberLinks before property access stop) := by
  obtain ⟨optional, computed⟩ := access
  -- A name after a point is no operand, but it has no links and fits all the same.
  have hproperty : property.AllFit ∧ property.hasOptionalLink = false := by
    cases computed with
    | true => exact ⟨(hcomputed rfl).allFit, (hcomputed rfl).isFree.spine⟩
    | false =>
      obtain ⟨hidentifier, hfits⟩ := hnamed rfl
      refine ⟨hfits, ?_⟩
      cases property <;> first | rfl | cases hidentifier
  refine ⟨⟨allFit_of_fits ⟨?_, ?_, ?_, ?_⟩ ?_, rfl, ?_, fun hgrouped => by cases hgrouped⟩, rfl⟩
  · intro hfalse
    exact (hnamed hfalse).1
  · intro x hx
    cases computed with
    | true =>
      rcases List.mem_cons.1 hx with rfl | hx
      · exact h.name
      · obtain rfl := List.mem_singleton.1 hx
        exact (hcomputed rfl).isFree.name
    | false =>
      obtain rfl := List.mem_singleton.1 hx
      exact h.name
  · intro x hx
    obtain rfl := List.mem_singleton.1 hx
    exact hproperty.2
  · intro x hx
    rcases List.mem_append.1 hx with hx | hx
    · obtain ⟨hgrouped, hx⟩ := List.mem_ite_nil_right.1 hx
      obtain rfl := List.mem_singleton.1 hx
      exact h.grouped hgrouped
    · obtain ⟨htrue, hx⟩ := List.mem_ite_nil_right.1 hx
      obtain rfl := List.mem_singleton.1 hx
      exact (hcomputed htrue).isFree.word
  · intro x hx
    rcases List.mem_cons.1 hx with rfl | hx
    · exact h.allFit
    · obtain rfl := List.mem_singleton.1 hx
      exact hproperty.1
  · show (optional || before.node.hasOptionalLink) = (before.hasOptional || optional)
    rw [h.spine, Bool.or_comm]

/-- A run grows by an access by an expression. -/
theorem grows_computed {property : Expr} {access : Access} (stop : Nat) (h : IsRun before)
    (hcomputed : access.computed = true) (hproperty : IsOperand property) :
    Grows before (memberLinks before property access stop) := by
  refine grows_memberLinks h (fun _ => hproperty) fun hfalse => ?_
  rw [hcomputed] at hfalse
  cases hfalse

/-- A run grows by an access by a name. -/
theorem grows_named {property : Expr} {access : Access} (stop : Nat) (h : IsRun before)
    (hcomputed : access.computed = false)
    (hproperty : property.isIdentifier = true ∧ property.AllFit) :
    Grows before (memberLinks before property access stop) := by
  refine grows_memberLinks h (fun htrue => ?_) fun _ => hproperty
  rw [hcomputed] at htrue
  cases htrue

/-- A call makes a run grow; the flag may have been raised for it already. -/
theorem grows_callLinks {optional hasOptional : Bool} (stop : Nat)
    (hflag : (hasOptional || optional) = (before.hasOptional || optional))
    (h : IsRun ⟨before.node, hasOptional⟩) (hes : ∀ x ∈ es, IsOperand x) :
    Grows before (callLinks before es optional stop) := by
  refine ⟨⟨allFit_of_fits ⟨trivial, ?_, ?_, ?_⟩ ?_, rfl, ?_,
    fun hgrouped => by cases hgrouped⟩, rfl⟩
  · intro x hx
    rcases List.mem_cons.1 hx with rfl | hx
    · exact h.name
    · exact (hes x hx).isFree.name
  · intro x hx
    exact (hes x hx).isFree.spine
  · intro x hx
    simp only [callLinks, standalone] at hx
    split at hx
    next hgrouped =>
      rcases List.mem_cons.1 hx with rfl | hx
      · exact h.grouped hgrouped
      · exact (hes x hx).isFree.word
    next => exact (hes x hx).isFree.word
  · intro x hx
    rcases List.mem_cons.1 hx with rfl | hx
    · exact h.allFit
    · exact (hes x hx).allFit
  · show (optional || before.node.hasOptionalLink) = (before.hasOptional || optional)
    rw [h.spine, Bool.or_comm, hflag]

/-- A complete run is no bare run with an optional link any more. -/
theorem isToken_finish (h : IsRun after)
    (hword : after.node.opensWithOperator = true → (Token.unaryOperator? text).isSome = true) :
    IsToken text after.finish := by
  rw [Links.finish]
  split
  next hoptional =>
    -- The chain ends the spine: what was an optional link below is none from outside.
    have hspine : after.node.hasOptionalLink = true := h.spine.trans hoptional
    refine ⟨allFit_of_fits ⟨hspine, ?_, ?_, ?_⟩ ?_, rfl, rfl, hword⟩
    · intro x hx
      obtain rfl := List.mem_singleton.1 hx
      exact h.name
    · intro x hx
      cases hx
    · intro x hx
      cases hx
    · intro x hx
      obtain rfl := List.mem_singleton.1 hx
      exact h.allFit
  next hoptional =>
    exact ⟨h.allFit, h.name, h.spine.trans (Bool.eq_false_iff.2 hoptional), hword⟩

/-- An update of a place; the first word stays the same if the operator comes after it. -/
theorem isToken_update {span : Span} {operator : UpdateOperator} {leading : Bool}
    (h : IsToken text e) (hplace : e.isPlace = true) :
    IsToken text (.update span operator leading e) := by
  refine ⟨allFit_of_fits ⟨hplace, ?_, ?_, ?_⟩ ?_, rfl, rfl, ?_⟩
  · intro x hx
    obtain rfl := List.mem_singleton.1 hx
    exact h.name
  · intro x hx
    obtain rfl := List.mem_singleton.1 hx
    exact h.spine
  · intro x hx
    cases hx
  · intro x hx
    obtain rfl := List.mem_singleton.1 hx
    exact h.allFit
  · cases leading with
    | true =>
      intro hword
      cases hword
    | false => exact h.word

/-- A `new` is complete, as its callee has no optional link and is no chain. -/
theorem isOperand_new {span : Span} {callee : Callee} (h : IsRun callee.links)
    (hes : ∀ x ∈ callee.arguments, IsOperand x) (hoptional : callee.links.hasOptional = false)
    (hchain : callee.links.node.isChain = false) :
    IsOperand (.new span callee.links.node callee.arguments) := by
  refine ⟨allFit_of_fits ⟨hchain, ?_, ?_, ?_⟩ ?_, rfl, rfl, rfl⟩
  · intro x hx
    rcases List.mem_cons.1 hx with rfl | hx
    · exact h.name
    · exact (hes x hx).isFree.name
  · intro x hx
    rcases List.mem_cons.1 hx with rfl | hx
    · exact h.spine.trans hoptional
    · exact (hes x hx).isFree.spine
  · intro x hx
    exact (hes x hx).isFree.word
  · intro x hx
    rcases List.mem_cons.1 hx with rfl | hx
    · exact h.allFit
    · exact (hes x hx).allFit

/-! ## Leaves -/

/-- A node without nodes below it fits by itself. -/
theorem fits_leaf (hshape : e.HasShape) (hchildren : e.children = []) : e.AllFit := by
  have hnone : ∀ x, x ∉ e.children := fun x hx => by rw [hchildren] at hx; cases hx
  refine allFit_of_fits ⟨hshape, ?_, ?_, ?_⟩ fun x hx => (hnone x hx).elim
  · intro x hx
    exact (hnone x (mem_children_of_mem_operands hx)).elim
  · intro x hx
    obtain ⟨i, hi, -⟩ := exists_index_of_mem_detached hx
    exact (hnone x (List.mem_of_getElem? hi)).elim
  · intro x hx
    exact (hnone x (mem_children_of_mem_operands (mem_operands_of_mem_standalone hx))).elim

/-- What is read as a word is a name. -/
theorem isName_leadingWord (h : Text.leadingWord text ≠ []) :
    IsName (String.ofList (Text.leadingWord text)) := by
  cases text with
  | nil => exact absurd rfl h
  | cons x xs =>
    rw [Text.leadingWord] at h ⊢
    split at h
    next hx =>
      rw [if_pos hx]
      refine ⟨x, xs.takeWhile Text.isIdentifierPart, String.toList_ofList, hx, ?_⟩
      exact fun y hy => List.all_eq_true.1 List.all_takeWhile y hy
    next => exact absurd rfl h

/-- A word other than `new` may be the first part of a run. -/
theorem isPrimary_ofWord {span : Span} {word : List Char} (hword : Text.leadingWord text = word)
    (hne : word ≠ []) (hnew : word ≠ "new".toList) :
    IsPrimary text (Leaf.ofWord span (String.ofList word)) := by
  have hoperator := Token.unaryOperator?_of_leadingWord hword hne
  have hname : IsName (String.ofList word) := hword ▸ isName_leadingWord (hword ▸ hne)
  unfold Leaf.ofWord
  split
  next => exact ⟨⟨fits_leaf trivial rfl, rfl, rfl, nofun⟩, nofun⟩
  next heq =>
    rw [heq]
    exact ⟨⟨fits_leaf Spells.true rfl, rfl, rfl, nofun⟩, nofun⟩
  next heq =>
    rw [heq]
    exact ⟨⟨fits_leaf Spells.false rfl, rfl, rfl, nofun⟩, nofun⟩
  next heq =>
    rw [heq]
    exact ⟨⟨fits_leaf Spells.null rfl, rfl, rfl, nofun⟩, nofun⟩
  next hthis htrue hfalse hnull =>
    -- What is left is no keyword; it may be the word of an operator, but then one stands in the
    -- text.
    refine ⟨⟨fits_leaf hname rfl, ?_, rfl, ?_⟩, nofun⟩
    · refine Bool.eq_false_iff.2 fun hreserved => ?_
      have hmem : String.ofList word ∈ reservedWords := by simpa [isReserved] using hreserved
      simp only [reservedWords, List.mem_cons, List.not_mem_nil, or_false] at hmem
      rcases hmem with heq | heq | heq | heq | heq
      · exact hnew (by rw [← heq, String.toList_ofList])
      · exact hthis heq
      · exact htrue heq
      · exact hfalse heq
      · exact hnull heq
    · intro hopens
      rw [hoperator]
      exact hopens

/-- A number is complete. -/
theorem isOperand_number {c' : Cursor} (hstart : Pattern.numberStart.isAtStart c.rest = true)
    (h : Leaf.number c = .ok e c') : IsOperand e := by
  obtain ⟨digits, decimal, hnumeral, hread, -, rfl⟩ := Leaf.number_eq_ok hstart h
  refine ⟨fits_leaf (Spells.number ?_ ?_) rfl, rfl, rfl, rfl⟩
  · rwa [String.toList_ofList]
  · rwa [String.toList_ofList]

/-- The name of a member access is an identifier. -/
theorem propertyName_sound {c' : Cursor} (h : Leaf.propertyName c = .ok e c') :
    e.isIdentifier = true ∧ e.AllFit := by
  obtain ⟨hne, rfl, -⟩ := Leaf.propertyName_eq_ok.1 h
  exact ⟨rfl, fits_leaf (isName_leadingWord hne) rfl⟩

/-! ## Everything that is derived -/

/-- What has grown may grow again. -/
theorem Grows.trans {between : Links} (h₁ : Grows before between) (h₂ : Grows between after) :
    Grows before after :=
  ⟨h₂.isRun, h₂.word.trans h₁.word⟩

/-- Each production yields what it should. -/
theorem Derives.shaped {depth : Nat} {p : Production} {c c' : Cursor} {v : p.Yield}
    (h : Derives depth p c v c') : Shaped p c v := by
  -- A run is followed by its flag (`Grows`) up to where it is finished; only then it is a token.
  induction h with
  | ungrouped _ ih => exact isOperand_sequenceNode? ih
  | grouped _ _ _ _ ih => exact isOperand_sequenceNode? ih
  | lastExpression _ _ _ ih =>
    intro e he
    exact ih e (Option.mem_toList.1 he)
  | moreExpressions _ _ _ ihe ihes =>
    intro e he
    rcases List.mem_cons.1 he with rfl | he
    · exact ihe _ rfl
    · exact ihes e he
  | expression _ ih => exact ih
  | unconditional _ _ ih =>
    intro e he
    obtain ⟨climbed, hclimbed, rfl⟩ := Option.map_eq_some_iff.1 he
    exact ih climbed hclimbed
  | conditional _ _ _ _ _ ihtest ihconsequent ihalternate =>
    intro e he
    cases he
    refine isOperand_of_children trivial rfl rfl rfl ?_ (List.Subset.refl _)
    intro x hx
    simp only [children, List.mem_cons, List.not_mem_nil, or_false] at hx
    rcases hx with rfl | rfl | rfl
    · exact ihtest _ rfl
    · exact ihconsequent _ rfl
    · exact ihalternate _ rfl
  | operands _ ih => exact ih
  | noOperand =>
    intro climbed h
    cases h
  | climb _ _ ihleft ih =>
    intro climbed h
    cases h
    exact ih (ihleft _ rfl)
  | noInfix => exact id
  | joined _ _ _ _ _ _ ihright ih =>
    intro hleft
    exact ih (isOperand_join hleft (ihright _ rfl))
  | unary _ ih => exact ih
  | unaryOperator _ _ ih =>
    intro e he
    cases he
    refine isOperand_of_children rfl rfl rfl rfl ?_ (List.Subset.refl _)
    intro x hx
    obtain rfl := List.mem_singleton.1 hx
    exact ih _ rfl
  | @noUnaryOperator _ c _ _ hop _ ih =>
    intro e he
    have htoken := ih e he
    -- No unary operator has been read, so the first word of the token is none.
    rw [c.pastBlanks_pastBlanks] at htoken
    exact htoken.isOperand hop
  | noToken =>
    intro e he
    cases he
  | token _ _ _ ihprimary ihrun =>
    intro e he
    cases he
    have hprimary := ihprimary _ rfl
    have hgrows := ihrun hprimary.isRun
    exact isToken_finish hgrows.isRun fun hword => hprimary.word (hgrows.word ▸ hword)
  | trailingUpdate _ _ _ hplace ihprimary ihrun =>
    intro e he
    cases he
    have hprimary := ihprimary _ rfl
    have hgrows := ihrun hprimary.isRun
    exact isToken_update
      (isToken_finish hgrows.isRun fun hword => hprimary.word (hgrows.word ▸ hword)) hplace
  | noLink =>
    intro h
    exact ⟨h, rfl⟩
  | linkAccess _ _ _ ihbetween ih =>
    intro h
    have hbetween := ihbetween h
    exact hbetween.trans (ih hbetween.isRun)
  | linkCall _ _ _ _ ihbetween ih =>
    intro h
    have hbetween := ihbetween _ rfl h
    exact hbetween.trans (ih hbetween.isRun)
  | member _ ih => exact ih
  | computedLast hcomputed _ _ _ ih =>
    intro h
    exact grows_computed _ h hcomputed (ih _ rfl)
  | computedNext hcomputed _ _ _ _ ihproperty ih =>
    intro h
    have hmember := fun stop => grows_computed stop h hcomputed (ihproperty _ rfl)
    exact (hmember _).trans (ih (hmember _).isRun)
  | namedLast hcomputed _ hproperty _ =>
    intro h
    exact grows_named _ h hcomputed (propertyName_sound hproperty)
  | namedNext hcomputed _ hproperty _ _ ih =>
    intro h
    have hmember := fun stop => grows_named stop h hcomputed (propertyName_sound hproperty)
    exact (hmember _).trans (ih (hmember _).isRun)
  | accessedCall _ _ _ ih =>
    intro h
    -- `?.(` raises the flag before the call has been read.
    have hgrows := ih _ (by rw [Bool.or_assoc, Bool.or_self]) h
    exact ⟨hgrows.isRun, hgrows.word⟩
  | callLast _ _ ih =>
    intro hasOptional hflag h
    exact grows_callLinks _ hflag h ih
  | callNext _ _ _ iharguments ih =>
    intro hasOptional hflag h
    have hcall := fun stop => grows_callLinks stop hflag h iharguments
    exact (hcall _).trans (ih (hcall _).isRun)
  | arguments _ _ ih => exact ih
  | lastArgument _ _ ih =>
    intro e he
    exact ih e (Option.mem_toList.1 he)
  | moreArguments _ _ _ ihe ihes =>
    intro e he
    rcases List.mem_cons.1 he with rfl | he
    · exact ihe _ rfl
    · exact ihes e he
  | primary _ ih => exact ih
  | group _ _ ih =>
    intro e he
    exact (ih e he).isPrimary
  | leadingUpdate _ _ ih | new _ _ ih =>
    intro e he
    cases he
    exact ih.isPrimary
  | word hword hne hnew =>
    intro e he
    cases he
    exact isPrimary_ofWord hword hne hnew
  | number hstart h =>
    intro e he
    cases he
    exact (isOperand_number hstart h).isPrimary
  | arrayLiteral _ _ ih =>
    intro e he
    cases he
    exact ih.isPrimary
  | noPrimary =>
    intro e he
    cases he
  | construct _ _ hoptional hchain ihprimary ihcallee =>
    -- A callee with an optional link, or one that is a chain, would have been refused.
    obtain ⟨hgrows, hes⟩ := ihcallee (ihprimary _ rfl).isRun
    exact isOperand_new hgrows.isRun hes hoptional hchain
  | noCalleeLink =>
    intro h
    exact ⟨⟨h, rfl⟩, List.forall_mem_nil _⟩
  | calleeAccess _ _ _ ihbetween ih =>
    intro h
    have hbetween := ihbetween h
    obtain ⟨hgrows, hes⟩ := ih hbetween.isRun
    exact ⟨hbetween.trans hgrows, hes⟩
  | calleeArguments _ _ _ ih =>
    intro h
    exact ⟨⟨h, rfl⟩, ih⟩
  | updated _ hplace ih =>
    -- With `++` in front no word of the argument comes first any more.
    exact ⟨(isToken_update (ih _ rfl) hplace).allFit, rfl, rfl, rfl⟩
  | array _ _ ih =>
    refine isOperand_of_children trivial rfl rfl rfl ?_ (List.Subset.refl _)
    intro x hx
    -- Only elements that are no holes are nodes right below the array.
    obtain ⟨slot, hslot, hx⟩ := List.mem_filterMap.1 hx
    have hslot' : slot = some x := hx
    exact ih x (hslot' ▸ hslot)
  | lastElement _ _ ih =>
    intro e he
    obtain ⟨x, hx, heq⟩ := List.mem_map.1 he
    cases heq
    exact ih e (Option.mem_toList.1 hx)
  | moreElements _ _ _ ihe ih =>
    intro e he
    rcases List.mem_cons.1 he with heq | he
    · exact ihe e heq.symm
    · exact ih e he

/-- A text is read as a complete tree. -/
theorem Reads.isOperand {source : String} (h : Reads source e) : IsOperand e := by
  obtain ⟨_, c', hderives, -⟩ := h
  exact hderives.shaped e rfl

end Grammar

namespace Expr

/-- Every tree that is read is well shaped. -/
theorem parseWithin_wellShaped {limits : Limits} {source : String} {e : Expr}
    (h : parseWithin limits source = .ok e) : e.WellShaped := by
  have hoperand := (reads_of_parseWithin_eq_ok h).isOperand
  exact wellShaped_of_fits hoperand.allFit hoperand.isFree

/-- A text with an optional link, and the chain that it is read as. -/
theorem parseWithin_wellShaped_chain :
    let e := chain ⟨0, 4⟩
      (member ⟨0, 4⟩ (identifier ⟨0, 1⟩ "a") (identifier ⟨3, 4⟩ "b") false true)
    parseWithin .standard "a?.b" = .ok e ∧ e.WellShaped := by
  intro e
  have hparse : parseWithin .standard "a?.b" = .ok e := rfl
  exact ⟨hparse, parseWithin_wellShaped hparse⟩

end Expr

end Estree
