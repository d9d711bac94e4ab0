import Estree.Proofs.Number.Layout
import Estree.Proofs.Source.RoundTrip

/-!
# Literals without a spelling

A literal that has no spelling is written as the text of its value. `withSpellings` puts these texts
into the tree as its spellings, and the question is whether the tree is still written the same.

> `toSource_withSpellings_iff`: it is, unless there is a number without a spelling right before the
> point of a member access. There the digits of the spelling are written in parentheses, and it has
> none: `().x` comes of what is written `(1).x` with the spelling.

What is missing in a text are digits, and no other place of the tree is written differently, so it
is enough to count them. `hiddenDigits` adds up what the numbers before points hide, `Gains n` says
of two texts that the second one has `n` digits more and that they are the same for `n = 0`.

> `SpellsOut`: with the spellings, the text of a tree gains the digits that the tree hides, and the
> writing comes upon the same defect if there is one.

This is the invariant of the induction over the tree (`spellsOut`): each way to put texts together
keeps `Gains` and adds up the numbers (`Gains.append`, `GainsAll.separated`), every check and every
question about parentheses has the same answer on both trees (`isGroupedAt_withSpellings` and those
beside it), and the access by a name is the one node that has digits of its own to add
(`beforeName_withSpellings`). A number with a text has at least one digit (`digits_pos`), so that
the sum is zero only if no number is hidden (`digitsBeforeName_eq_zero_iff`).
-/

namespace Estree

namespace Source

/-! ## Spellings -/

/-- The spelling of a literal, or else the text of its value. -/
def spelling (raw : String) (value : LiteralValue) : String :=
  match literalText value with
  | .ok text => if raw.isEmpty then String.ofList text else raw
  | .error _ => raw

end Source

/-- Whether a value has a text: all have but numbers that are not finite or have a sign. -/
def LiteralValue.HasText : LiteralValue → Prop
  | .number value => value.isFinite = true ∧ value.isNegative = false
  | .boolean _ | .null => True

namespace Expr

open Source

/-- A literal without a spelling has a value with a text. -/
def IsSpellable : Expr → Prop
  | literal _ raw value => raw = "" → value.HasText
  | _ => True

mutual

/-- The tree with the texts of their values as the spellings of literals that have none. -/
def withSpellings : Expr → Expr
  | literal span raw value => .literal span (spelling raw value) value
  | identifier span name => .identifier span name
  | this span => .this span
  | array span elements => .array span (withSpellingsSlots elements)
  | sequence span expressions => .sequence span (withSpellingsList expressions)
  | conditional span test consequent alternate =>
    .conditional span test.withSpellings consequent.withSpellings alternate.withSpellings
  | new span callee arguments => .new span callee.withSpellings (withSpellingsList arguments)
  | call span callee arguments optional =>
    .call span callee.withSpellings (withSpellingsList arguments) optional
  | member span object property computed optional =>
    .member span object.withSpellings property.withSpellings computed optional
  | chain span expression => .chain span expression.withSpellings
  | update span operator leading argument =>
    .update span operator leading argument.withSpellings
  | unary span operator leading argument => .unary span operator leading argument.withSpellings
  | binary span operator left right =>
    .binary span operator left.withSpellings right.withSpellings
  | logical span operator left right =>
    .logical span operator left.withSpellings right.withSpellings

/-- The trees of a list with such spellings. -/
def withSpellingsList : List Expr → List Expr
  | [] => []
  | e :: rest => e.withSpellings :: withSpellingsList rest

/-- The elements of an array with such spellings. -/
def withSpellingsSlots : List (Option Expr) → List (Option Expr)
  | [] => []
  | none :: rest => none :: withSpellingsSlots rest
  | some e :: rest => some e.withSpellings :: withSpellingsSlots rest

end

/-- A number without a spelling stands right before the point of the access. -/
def hidesNumber : Expr → Bool
  | member _ (literal _ raw (.number _)) _ false _ => raw.isEmpty
  | _ => false

end Expr

/-! ## Texts with more digits -/

namespace Source

/-- How many digits a text has. -/
def digits (text : List Char) : Nat :=
  text.countP Char.isDigit

/-- The second text has so many digits more than the first one, and it is the same if it has no
more. -/
structure Gains (n : Nat) (text text' : List Char) : Prop where
  digits_eq : digits text' = digits text + n
  eq_of_zero : n = 0 → text' = text

/-- The texts of one list have altogether so many digits more than those of another one. -/
inductive GainsAll : Nat → List (List Char) → List (List Char) → Prop
  | nil : GainsAll 0 [] []
  | cons {m n : Nat} {text text' : List Char} {texts texts' : List (List Char)} :
    Gains m text text' → GainsAll n texts texts' →
      GainsAll (m + n) (text :: texts) (text' :: texts')

variable {m n : Nat} {text text' other other' : List Char} {texts texts' : List (List Char)}

@[simp] theorem digits_append (text other : List Char) :
    digits (text ++ other) = digits text + digits other :=
  List.countP_append

@[simp] theorem digits_cons (x : Char) (text : List Char) :
    digits (x :: text) = digits text + if x.isDigit then 1 else 0 :=
  List.countP_cons

/-- A text gains nothing on itself. -/
theorem Gains.refl (text : List Char) : Gains 0 text text :=
  ⟨rfl, fun _ => rfl⟩

theorem Gains.of_eq (h : Gains m text text') (hmn : n = m) : Gains n text text' :=
  hmn ▸ h

/-- Texts one after the other gain what both of them gain. -/
theorem Gains.append (h : Gains m text text') (hother : Gains n other other') :
    Gains (m + n) (text ++ other) (text' ++ other') where
  digits_eq := by
    rw [digits_append, digits_append, h.digits_eq, hother.digits_eq]
    omega
  eq_of_zero hzero := by
    rw [h.eq_of_zero (by omega), hother.eq_of_zero (by omega)]

/-- What is put around a text without digits of its own does not matter. -/
theorem Gains.within (h : Gains n text text') (f : List Char → List Char) (k : Nat)
    (hf : ∀ text, digits (f text) = digits text + k) : Gains n (f text) (f text') where
  digits_eq := by
    rw [hf, hf, h.digits_eq]
    omega
  eq_of_zero hzero := congrArg f (h.eq_of_zero hzero)

theorem Gains.cons (x : Char) (h : Gains n text text') : Gains n (x :: text) (x :: text') :=
  h.within (x :: ·) _ fun text => digits_cons x text

/-- Parentheses are no digits. -/
theorem digits_group (isGrouped : Bool) (text : List Char) :
    digits (group isGrouped text) = digits text := by
  cases isGrouped with
  | false => rfl
  | true =>
    show digits ('(' :: (text ++ [')'])) = digits text
    simp [digits]

theorem Gains.group (isGrouped : Bool) (h : Gains n text text') :
    Gains n (group isGrouped text) (group isGrouped text') :=
  h.within _ 0 fun text => digits_group isGrouped text

/-- The space between an operator and its operand is no digit. -/
theorem Gains.unary (operator : UnaryOperator) (h : Gains n text text') :
    Gains n (unaryText operator text) (unaryText operator text') := by
  refine h.within _ (digits operator.text.toList) fun text => ?_
  have hspaced : digits (if needsSpace operator text then ' ' :: text else text) = digits text := by
    split
    · exact (digits_cons ' ' text).trans rfl
    · rfl
  rw [unaryText, digits_append, hspaced, Nat.add_comm]

/-- An infix operator between two operands adds nothing of its own. -/
theorem Gains.joined (operator : InfixOperator) (h : Gains m text text')
    (hother : Gains n other other') :
    Gains (m + n) (infixText operator text other) (infixText operator text' other') := by
  have hright := (Gains.refl operator.text.toList).append (hother.cons ' ')
  rw [Nat.zero_add] at hright
  exact h.append (hright.cons ' ')

/-- Texts between commas gain what they gain altogether. -/
theorem GainsAll.separated (h : GainsAll n texts texts') :
    Gains n (separated texts) (separated texts') := by
  induction h with
  | nil => exact .refl []
  | @cons m n text text' texts texts' htext htexts ih =>
    cases htexts with
    | nil => exact htext
    | cons => exact htext.append ((ih.cons ' ').cons ',')

theorem GainsAll.concat (h : GainsAll n texts texts') (text : List Char) :
    GainsAll n (texts ++ [text]) (texts' ++ [text]) := by
  induction h with
  | nil => exact .cons (.refl text) .nil
  | cons htext _ ih => exact .cons htext ih

theorem GainsAll.arguments (h : GainsAll n texts texts') :
    Gains n (argumentsText texts) (argumentsText texts') :=
  (h.separated.append (.refl [')'])).cons '('

/-- The elements of an array do so too, if both arrays end alike: the comma after a hole at the end
is no digit, but it is there in one of them only if it is in the other. -/
theorem GainsAll.elements {elements elements' : List (Option Expr)} (h : GainsAll n texts texts')
    (hends : elements'.getLast?.any Option.isNone = elements.getLast?.any Option.isNone) :
    Gains n (elementsText elements texts) (elementsText elements' texts') := by
  rw [elementsText, elementsText, hends]
  refine Gains.cons '[' (Gains.append (n := 0) ?_ (.refl [']']))
  cases elements.getLast?.any Option.isNone with
  | false => exact h.separated
  | true => exact (h.concat []).separated

/-! ## Outcomes -/

/-- Both writings come upon the same defect, or they are related. -/
inductive Matches {α : Type} (R : α → α → Prop) : Except Malformed α → Except Malformed α → Prop
  | refused (malformed : Malformed) : Matches R (.error malformed) (.error malformed)
  | written {a a' : α} : R a a' → Matches R (.ok a) (.ok a')

variable {α β : Type} {R : α → α → Prop} {S : β → β → Prop} {r r' : Except Malformed α}

/-- One step after the other: what follows is only compared where both first steps have
succeeded. -/
theorem Matches.bind {f f' : α → Except Malformed β} (h : Matches R r r')
    (hf : ∀ a a', R a a' → Matches S (f a) (f' a')) : Matches S (r >>= f) (r' >>= f') := by
  cases h with
  | refused malformed => exact .refused malformed
  | written hR => exact hf _ _ hR

/-- A check that both writings make has the same outcome in both. -/
theorem Matches.afterCheck {condition : Prop} [Decidable condition] {malformed : Malformed}
    {next next' : PUnit → Except Malformed β} (h : Matches S (next ⟨⟩) (next' ⟨⟩)) :
    Matches S (if condition then (throw malformed : Except Malformed PUnit) >>= next else next ⟨⟩)
      (if condition then (throw malformed : Except Malformed PUnit) >>= next' else next' ⟨⟩) := by
  by_cases hcondition : condition
  · rw [if_pos hcondition, if_pos hcondition]
    exact .refused malformed
  · rw [if_neg hcondition, if_neg hcondition]
    exact h

/-- A writing matches itself. -/
theorem Matches.refl (h : ∀ a, R a a) (r : Except Malformed α) : Matches R r r := by
  cases r with
  | error malformed => exact .refused malformed
  | ok a => exact .written (h a)

end Source

/-! ## Spellings and texts -/

namespace Expr

open Source

variable {e : Expr} {es : List Expr}

/-- The nested recursion over a list is a `map`, so that the lemmas about lists apply. -/
theorem withSpellingsList_eq_map (es : List Expr) :
    withSpellingsList es = es.map withSpellings := by
  induction es with
  | nil => rfl
  | cons e rest ih => rw [withSpellingsList, ih, List.map_cons]

/-- So it is over the elements of an array, holes included. -/
theorem withSpellingsSlots_eq_map (elements : List (Option Expr)) :
    withSpellingsSlots elements = elements.map (Option.map withSpellings) := by
  induction elements with
  | nil => rfl
  | cons slot rest ih => cases slot <;> rw [withSpellingsSlots, ih] <;> rfl

/-- A value with a text is written without a defect. -/
theorem literalText_eq_ok {value : LiteralValue} (h : value.HasText) :
    ∃ text, literalText value = .ok text := by
  cases value with
  | number value =>
    obtain ⟨hfinite, hpositive⟩ := h
    exact ⟨value.sourceText.toList, by simp [literalText, hfinite, hpositive]⟩
  | boolean value => cases value <;> exact ⟨_, rfl⟩
  | null => exact ⟨_, rfl⟩

theorem spelling_of_ne {raw : String} (h : raw ≠ "") (value : LiteralValue) :
    spelling raw value = raw := by
  have hraw : ¬raw.isEmpty = true := by rwa [String.isEmpty_iff]
  unfold spelling
  split
  · exact if_neg hraw
  · rfl

/-- A number without a spelling is spelled as its text. -/
theorem spelling_number {value : Binary64} (h : (LiteralValue.number value).HasText) :
    spelling "" (.number value) = value.sourceText := by
  have htext : literalText (.number value) = .ok value.sourceText.toList := by
    simp [literalText, h.1, h.2]
  rw [spelling, htext]
  exact String.ofList_toList

/-- A literal alone is written as it is spelled. -/
theorem sourceText_literal_spelling {span : Span} {raw : String} {value : LiteralValue}
    (h : (literal span raw value).IsSpellable) :
    (literal span (spelling raw value) value).sourceText = (literal span raw value).sourceText := by
  by_cases hraw : raw = ""
  · obtain ⟨text, htext⟩ := literalText_eq_ok (h hraw)
    subst hraw
    rw [spelling, htext]
    show (literal span (String.ofList text) value).sourceText = literalText value
    rw [sourceText, String.toList_ofList, htext]
    split <;> rfl
  · rw [spelling_of_ne hraw]

/-! ## Where parentheses are needed -/

/-- How tightly a node binds does not depend on spellings. -/
theorem level_withSpellings (e : Expr) : e.withSpellings.level = e.level := by
  cases e with
  | update span operator leading argument => cases leading <;> rfl
  | _ => rfl

/-- Nor does it whether the node is a chain. -/
theorem isChain_withSpellings (e : Expr) : e.withSpellings.isChain = e.isChain := by
  cases e <;> rfl

/-- Nor whether it can be updated. -/
theorem isPlace_withSpellings (e : Expr) : e.withSpellings.isPlace = e.isPlace := by
  cases e <;> rfl

/-- Nor whether there is a call in the callee of a `new`. -/
theorem hasCallInSpine_withSpellings (e : Expr) :
    e.withSpellings.hasCallInSpine = e.hasCallInSpine := by
  induction e using Expr.induction with
  | h e ih =>
    cases e with
    | member span object property computed optional => exact ih object (by simp [children])
    | _ => rfl

/-- So the parentheses of an operand are the same with the spellings. -/
theorem isGroupedAt_withSpellings (e : Expr) (least : Nat) :
    e.withSpellings.isGroupedAt least = e.isGroupedAt least := by
  rw [isGroupedAt, isGroupedAt, level_withSpellings]

/-- Those of an object before an access are. -/
theorem isGroupedBeforeLink_withSpellings (e : Expr) :
    e.withSpellings.isGroupedBeforeLink = e.isGroupedBeforeLink := by
  rw [isGroupedBeforeLink, isGroupedBeforeLink, isChain_withSpellings, isGroupedAt_withSpellings]

/-- Those of the callee of a `new` are. -/
theorem isGroupedAfterNew_withSpellings (e : Expr) :
    e.withSpellings.isGroupedAfterNew = e.isGroupedAfterNew := by
  rw [isGroupedAfterNew, isGroupedAfterNew, isChain_withSpellings, hasCallInSpine_withSpellings,
    isGroupedAt_withSpellings]

/-- Whether `??` meets `&&` or `||` is a matter of the operators. -/
theorem clashesWith_withSpellings (e : Expr) (operator : InfixOperator) :
    e.withSpellings.clashesWith operator = e.clashesWith operator := by
  cases operator with
  | binary => rfl
  | logical operator => cases e <;> rfl

/-- Those of a left operand are the same. -/
theorem isGroupedBefore_withSpellings (e : Expr) (operator : InfixOperator) :
    e.withSpellings.isGroupedBefore operator = e.isGroupedBefore operator := by
  have hunary : e.withSpellings.isUnary = e.isUnary := by cases e <;> rfl
  rw [isGroupedBefore, isGroupedBefore, hunary, clashesWith_withSpellings,
    isGroupedAt_withSpellings]

/-- Those of a right operand are the same. -/
theorem isGroupedAfter_withSpellings (e : Expr) (operator : InfixOperator) :
    e.withSpellings.isGroupedAfter operator = e.isGroupedAfter operator := by
  rw [isGroupedAfter, isGroupedAfter, clashesWith_withSpellings, isGroupedAt_withSpellings]

/-! ## Digits that are hidden -/

/-- The digits of a number without a spelling right before the point of the access. -/
def digitsBeforeName : Expr → Nat
  | member _ (literal _ raw (.number value)) _ false _ =>
    if raw.isEmpty then digits value.sourceText.toList else 0
  | _ => 0

/-- The digits that are hidden at all nodes of the tree. -/
def hiddenDigits (e : Expr) : Nat :=
  (e.nodes.map digitsBeforeName).sum

/-- The node and the trees right below it hide their digits apart from each other. -/
theorem hiddenDigits_eq (e : Expr) :
    e.hiddenDigits = e.digitsBeforeName + (e.children.map hiddenDigits).sum := by
  rw [hiddenDigits, nodes_eq, List.map_cons, List.sum_cons]
  congr 1
  induction e.children with
  | nil => rfl
  | cons child rest ih =>
    rw [List.flatMap_cons, List.map_append, List.sum_append, ih, List.map_cons, List.sum_cons]
    rfl

/-- The text of a finite number has a digit. -/
theorem digits_pos {value : Binary64} (hfinite : value.isFinite = true) :
    0 < digits value.sourceText.toList :=
  List.countP_pos_iff.2 (value.exists_isDigit_mem_sourceText hfinite)

/-! ## Trees -/

/-- The text of the tree has, with the spellings, those digits more that it hides. -/
def SpellsOut (e : Expr) : Prop :=
  Matches (Gains e.hiddenDigits) e.sourceText e.withSpellings.sourceText

/-- Trees one after the other gain what each of them hides; the first defect among them ends both
writings. -/
theorem operandTexts_withSpellings (h : ∀ x ∈ es, x.SpellsOut) :
    Matches (GainsAll (es.map hiddenDigits).sum) (operandTexts es)
      (operandTexts (es.map withSpellings)) := by
  induction es with
  | nil => exact .written .nil
  | cons e rest ih =>
    obtain ⟨he, hrest⟩ := List.forall_mem_cons.1 h
    rw [List.map_cons, List.map_cons, List.sum_cons]
    unfold operandTexts
    refine he.bind fun text text' htext => (ih hrest).bind fun texts texts' htexts => ?_
    rw [isGroupedAt_withSpellings]
    exact .written (.cons (htext.group _) htexts)

/-- So do the elements of an array; a hole has no text on either side. -/
theorem slotTexts_withSpellings {elements : List (Option Expr)}
    (h : ∀ x ∈ elements.filterMap id, x.SpellsOut) :
    Matches (GainsAll ((elements.filterMap id).map hiddenDigits).sum) (slotTexts elements)
      (slotTexts (elements.map (Option.map withSpellings))) := by
  induction elements with
  | nil => exact .written .nil
  | cons slot rest ih =>
    cases slot with
    | none =>
      rw [List.map_cons, Option.map_none]
      unfold slotTexts
      refine (ih h).bind fun texts texts' htexts => .written ?_
      rw [← Nat.zero_add (List.sum _)]
      exact .cons (.refl []) htexts
    | some e =>
      obtain ⟨he, hrest⟩ := List.forall_mem_cons.1 h
      rw [List.map_cons, Option.map_some]
      show Matches (GainsAll (e.hiddenDigits + ((rest.filterMap id).map hiddenDigits).sum)) _ _
      unfold slotTexts
      refine he.bind fun text text' htext => (ih hrest).bind fun texts texts' htexts => ?_
      rw [isGroupedAt_withSpellings]
      exact .written (.cons (htext.group _) htexts)

/-- The object of an access by a name, as it is written. -/
def beforeName (object : Expr) : Except Malformed (List Char) :=
  match object.bareDigits? with
  | some digits => pure (group true digits)
  | none => group object.isGroupedBeforeLink <$> object.sourceText

/-- An object that is no bare number is written before a point as anywhere else. -/
theorem beforeName_withSpellings_of_none (h : e.SpellsOut) (hnone : e.bareDigits? = none)
    (hnone' : e.withSpellings.bareDigits? = none) :
    Matches (Gains e.hiddenDigits) e.beforeName e.withSpellings.beforeName := by
  unfold beforeName
  rw [hnone, hnone', isGroupedBeforeLink_withSpellings]
  exact h.bind fun text text' htext => .written (htext.group _)

/-- A number without a spelling is written before a point as parentheses around nothing, where its
text has digits. -/
theorem beforeName_number {span : Span} {value : Binary64}
    (hvalue : (LiteralValue.number value).HasText) :
    Matches (Gains (digits value.sourceText.toList)) (.ok (group true []))
      (literal span (spelling "" (.number value)) (.number value)).beforeName := by
  have hpos := digits_pos hvalue.1
  have hgains : ∀ text : List Char, digits text = digits value.sourceText.toList →
      Gains (digits value.sourceText.toList) (group true []) text := fun text htext =>
    ⟨by rw [digits_group, htext]; exact (Nat.zero_add _).symm, fun hzero => by omega⟩
  rw [spelling_number hvalue, beforeName]
  -- The text may be digits alone, which are in parentheses, or have a point or an exponent.
  cases hdigits : (literal span value.sourceText (.number value)).bareDigits? with
  | some found =>
    have hfound : found = value.sourceText.toList := by
      rw [bareDigits?] at hdigits
      split at hdigits
      · exact (Option.some.inj hdigits).symm
      · cases hdigits
    exact .written (hgains _ (by rw [digits_group, hfound]))
  | none =>
    have htext : (literal span value.sourceText (.number value)).sourceText =
        .ok value.sourceText.toList := by
      have hempty : ¬value.sourceText.isEmpty = true := by
        rw [String.isEmpty_iff]
        intro hempty
        rw [hempty] at hpos
        exact absurd hpos (Nat.lt_irrefl 0)
      rw [sourceText, if_neg hempty]
    rw [htext]
    exact .written (hgains _ (digits_group _ _))

/-- Only before a name it is looked at whether a spelling has digits alone, as an empty one has. -/
theorem beforeName_withSpellings (span : Span) (object property : Expr) (optional : Bool)
    (hspellable : object.IsSpellable) (h : object.SpellsOut) :
    Matches
      (Gains ((member span object property false optional).digitsBeforeName + object.hiddenDigits))
      object.beforeName object.withSpellings.beforeName := by
  cases object with
  | literal inner raw value =>
    cases value with
    | number value =>
      by_cases hraw : raw = ""
      · subst hraw
        exact beforeName_number (hspellable rfl)
      · have hempty : ¬raw.isEmpty = true := by rwa [String.isEmpty_iff]
        rw [withSpellings, spelling_of_ne hraw, digitsBeforeName, if_neg hempty]
        exact .refl .refl _
    | _ => exact (Nat.zero_add (hiddenDigits _)).symm ▸ beforeName_withSpellings_of_none h rfl rfl
  | _ => exact (Nat.zero_add (hiddenDigits _)).symm ▸ beforeName_withSpellings_of_none h rfl rfl

/-- An access by a name is the one place that asks for the digits of its object, so they are taken
out of the writing here. -/
theorem sourceText_member_named (span : Span) (object property : Expr) (optional : Bool) :
    (member span object property false optional).sourceText =
      object.beforeName >>= fun objectText =>
        match property with
        | identifier _ name =>
          return objectText ++ ((⟨optional, false⟩ : Access).text.toList ++ name.toList)
        | _ => throw .propertyNotIdentifier := by
  unfold sourceText beforeName
  cases object.bareDigits? <;> rfl

/-- Operands with an operator between them: it has no digits, and their parentheses are the same
with the spellings. -/
theorem matches_infix {left right : Expr} (operator : InfixOperator) (hleft : left.SpellsOut)
    (hright : right.SpellsOut) :
    Matches (Gains (left.hiddenDigits + right.hiddenDigits))
      (do
        let leftText ← left.sourceText
        let rightText ← right.sourceText
        return infixText operator (group (left.isGroupedBefore operator) leftText)
          (group (right.isGroupedAfter operator) rightText))
      (do
        let leftText ← left.withSpellings.sourceText
        let rightText ← right.withSpellings.sourceText
        return infixText operator (group (left.withSpellings.isGroupedBefore operator) leftText)
          (group (right.withSpellings.isGroupedAfter operator) rightText)) := by
  refine hleft.bind fun text text' htext => ?_
  refine hright.bind fun other other' hother => .written ?_
  rw [isGroupedBefore_withSpellings, isGroupedAfter_withSpellings]
  exact (htext.group _).joined operator (hother.group _)

/-- The induction over the tree: every node but a member access gains what the nodes right below it
gain. -/
theorem spellsOut (h : ∀ n ∈ e.nodes, n.IsSpellable) : e.SpellsOut := by
  induction e using Expr.induction with
  | h e ih =>
    obtain ⟨hself, hbelow⟩ := forall_mem_nodes_iff.1 h
    replace ih : ∀ child ∈ e.children, child.SpellsOut := fun child hchild =>
      ih child hchild (hbelow child hchild)
    unfold SpellsOut
    rw [hiddenDigits_eq]
    -- Only an access by a name has digits of its own to add. Everywhere else the sum is that of the
    -- nodes right below, and the texts are put together alike.
    cases e with
    | literal span raw value =>
      rw [withSpellings, sourceText_literal_spelling hself]
      exact .refl .refl _
    | identifier | this => exact .refl .refl _
    | array span elements =>
      -- The comma after a hole at the end is in both texts or in neither.
      have hends : (elements.map (Option.map withSpellings)).getLast?.any Option.isNone =
          elements.getLast?.any Option.isNone := by
        rw [List.getLast?_map]
        rcases elements.getLast? with _ | _ | _ <;> rfl
      rw [withSpellings, withSpellingsSlots_eq_map]
      unfold sourceText
      refine (slotTexts_withSpellings ih).bind fun texts texts' htexts => .written ?_
      exact (Nat.zero_add _).symm ▸ htexts.elements hends
    | sequence span es =>
      rw [withSpellings, withSpellingsList_eq_map]
      unfold sourceText
      rw [List.length_map]
      refine Matches.afterCheck ?_
      refine (operandTexts_withSpellings ih).bind fun texts texts' htexts => .written ?_
      exact (Nat.zero_add _).symm ▸ htexts.separated
    | conditional span test consequent alternate =>
      simp only [children, List.forall_mem_cons] at ih
      obtain ⟨htest, hconsequent, halternate, -⟩ := ih
      unfold withSpellings sourceText
      refine htest.bind fun text₁ text₁' h₁ => ?_
      refine hconsequent.bind fun text₂ text₂' h₂ => ?_
      refine halternate.bind fun text₃ text₃' h₃ => ?_
      rw [isGroupedAt_withSpellings, isGroupedAt_withSpellings, isGroupedAt_withSpellings]
      have hbranches := (h₂.group (consequent.isGroupedAt Level.conditional)).append
        ((((h₃.group (alternate.isGroupedAt Level.conditional)).cons ' ').cons ':').cons ' ')
      have htext := (h₁.group (test.isGroupedAt (Level.conditional + 1))).append
        (((hbranches.cons ' ').cons '?').cons ' ')
      exact .written (htext.of_eq (by simp [digitsBeforeName, children]))
    | new span callee es =>
      obtain ⟨hcallee, hes⟩ := List.forall_mem_cons.1 ih
      rw [withSpellings, withSpellingsList_eq_map]
      unfold sourceText
      refine hcallee.bind fun text text' htext => ?_
      refine (operandTexts_withSpellings hes).bind fun texts texts' htexts => .written ?_
      rw [isGroupedAfterNew_withSpellings]
      have htail := (htext.group callee.isGroupedAfterNew).append htexts.arguments
      exact ((((htail.cons ' ').cons 'w').cons 'e').cons 'n').of_eq
        (by simp [digitsBeforeName, children])
    | call span callee es optional =>
      obtain ⟨hcallee, hes⟩ := List.forall_mem_cons.1 ih
      rw [withSpellings, withSpellingsList_eq_map]
      unfold sourceText
      refine hcallee.bind fun text text' htext => ?_
      refine (operandTexts_withSpellings hes).bind fun texts texts' htexts => .written ?_
      rw [isGroupedBeforeLink_withSpellings]
      have hlink := (Gains.refl (if optional then ['?', '.'] else [])).append htexts.arguments
      exact ((htext.group callee.isGroupedBeforeLink).append hlink).of_eq
        (by simp [digitsBeforeName, children])
    | member span object property computed optional =>
      simp only [children, List.forall_mem_cons] at ih
      obtain ⟨hobject, hproperty, -⟩ := ih
      cases computed with
      | true =>
        unfold withSpellings sourceText
        refine hobject.bind fun text text' htext => ?_
        refine hproperty.bind fun other other' hother => .written ?_
        rw [isGroupedBeforeLink_withSpellings]
        have hlink := (Gains.refl (⟨optional, true⟩ : Access).text.toList).append
          (hother.append (.refl [']']))
        exact ((htext.group object.isGroupedBeforeLink).append hlink).of_eq
          (by simp [digitsBeforeName, children])
      | false =>
        have hspellable := hbelow object (by simp [children]) object (mem_nodes_self object)
        rw [withSpellings, sourceText_member_named, sourceText_member_named]
        have hname := beforeName_withSpellings span object property optional hspellable hobject
        refine hname.bind fun text text' htext => ?_
        cases property with
        | identifier inner name =>
          refine .written ((htext.append (.refl _)).of_eq ?_)
          rw [children, List.map_cons, List.map_cons, List.sum_cons, List.sum_cons]
          simp [hiddenDigits_eq (identifier inner name), digitsBeforeName, children]
        | _ => exact .refused .propertyNotIdentifier
    | chain span expression =>
      have hexpression := ih expression (by simp [children])
      have hdigits : (chain span expression).digitsBeforeName +
          ((chain span expression).children.map hiddenDigits).sum = expression.hiddenDigits := by
        simp [digitsBeforeName, children]
      unfold withSpellings sourceText
      rw [isChain_withSpellings, hdigits]
      exact Matches.afterCheck hexpression
    | update span operator leading argument =>
      have hargument := ih argument (by simp [children])
      unfold withSpellings sourceText
      rw [isPlace_withSpellings]
      refine Matches.afterCheck (hargument.bind fun text text' htext => ?_)
      cases leading with
      | true =>
        have hupdate := (Gains.refl operator.text.toList).append htext
        exact .written (hupdate.of_eq (by simp [digitsBeforeName, children]))
      | false =>
        have hupdate := htext.append (Gains.refl operator.text.toList)
        exact .written (hupdate.of_eq (by simp [digitsBeforeName, children]))
    | unary span operator leading argument =>
      have hargument := ih argument (by simp [children])
      unfold withSpellings sourceText
      refine hargument.bind fun text text' htext => .written ?_
      rw [isGroupedAt_withSpellings]
      exact ((htext.group _).unary operator).of_eq (by simp [digitsBeforeName, children])
    | binary span operator left right =>
      simp only [children, List.forall_mem_cons] at ih
      obtain ⟨hleft, hright, -⟩ := ih
      have hdigits : (binary span operator left right).digitsBeforeName +
          ((binary span operator left right).children.map hiddenDigits).sum =
            left.hiddenDigits + right.hiddenDigits := by
        simp [digitsBeforeName, children]
      unfold withSpellings sourceText
      rw [hdigits]
      exact matches_infix (.binary operator) hleft hright
    | logical span operator left right =>
      simp only [children, List.forall_mem_cons] at ih
      obtain ⟨hleft, hright, -⟩ := ih
      have hdigits : (logical span operator left right).digitsBeforeName +
          ((logical span operator left right).children.map hiddenDigits).sum =
            left.hiddenDigits + right.hiddenDigits := by
        simp [digitsBeforeName, children]
      unfold withSpellings sourceText
      rw [hdigits]
      exact matches_infix (.logical operator) hleft hright

/-- Nothing is hidden exactly if there is no number without a spelling before a point. -/
theorem digitsBeforeName_eq_zero_iff (h : ∀ child ∈ e.children, child.IsSpellable) :
    e.digitsBeforeName = 0 ↔ e.hidesNumber = false := by
  unfold hidesNumber
  split
  next inner raw value property optional =>
    rw [digitsBeforeName]
    cases hraw : raw.isEmpty with
    | false => exact ⟨fun _ => rfl, fun _ => rfl⟩
    | true =>
      have hvalue := h _ List.mem_cons_self (String.isEmpty_iff.1 hraw)
      have hpos := digits_pos hvalue.1
      rw [if_pos rfl]
      exact ⟨fun hzero => by omega, nofun⟩
  next hother =>
    refine iff_of_true ?_ rfl
    unfold digitsBeforeName
    split
    next => exact absurd rfl (hother _ _ _ _ _ _)
    next => rfl

/-! ## Sources -/

/-- A tree is written as it is with the texts of their values as the spellings of literals that have
none, if it is written at all and no number without a spelling stands right before the point of a
member access. If it is refused, it is refused with them as well, for the same defect. -/
theorem toSource_withSpellings_iff (h : ∀ n ∈ e.nodes, n.IsSpellable) :
    e.withSpellings.toSource = e.toSource ↔
      (∃ malformed, e.toSource = .error malformed) ∨ ∀ n ∈ e.nodes, n.hidesNumber = false := by
  have hspellsOut := spellsOut h
  have hnone : e.hiddenDigits = 0 ↔ ∀ n ∈ e.nodes, n.hidesNumber = false := by
    rw [hiddenDigits, List.sum_eq_zero_iff_forall_eq_nat, List.forall_mem_map]
    refine forall₂_congr fun n hn => digitsBeforeName_eq_zero_iff fun child hchild => ?_
    exact h child (mem_nodes_child hn hchild)
  unfold SpellsOut at hspellsOut
  rw [← hnone, toSource, toSource]
  generalize e.sourceText = r, e.withSpellings.sourceText = r' at hspellsOut ⊢
  cases hspellsOut with
  | refused malformed => exact ⟨fun _ => Or.inl ⟨malformed, rfl⟩, fun _ => rfl⟩
  | @written text text' hgains =>
    constructor
    · intro hsame
      have htext : text' = text := String.ofList_inj.1 (Except.ok.inj hsame)
      have hdigits := hgains.digits_eq
      rw [htext] at hdigits
      exact Or.inr (by omega)
    · rintro (⟨malformed, hrefused⟩ | hzero)
      · cases hrefused
      · rw [hgains.eq_of_zero hzero]

/-- The operands of a sum are written as their values say. -/
theorem toSource_withSpellings_iff_sum :
    let half := literal nowhere "" (.number ⟨0x3fe0000000000000⟩)
    let e := binary nowhere .add (literal nowhere "" (.boolean true)) half
    (∀ n ∈ e.nodes, n.IsSpellable) ∧ e.toSource = .ok "true + 0.5" ∧
      e.withSpellings.toSource = e.toSource := by
  intro half e
  have hspellable : ∀ n ∈ e.nodes, n.IsSpellable := by
    intro n hn
    simp only [e, half, nodes, List.mem_cons, List.mem_append, List.not_mem_nil, or_false] at hn
    rcases hn with rfl | rfl | rfl
    · exact trivial
    · exact fun _ => trivial
    · exact fun _ => ⟨rfl, rfl⟩
  have hsource : e.toSource = .ok "true + 0.5" := eq_ok_of_toOption (by decide +kernel)
  refine ⟨hspellable, hsource, (toSource_withSpellings_iff hspellable).2 (Or.inr ?_)⟩
  intro n hn
  simp only [e, half, nodes, List.mem_cons, List.mem_append, List.not_mem_nil, or_false] at hn
  rcases hn with rfl | rfl | rfl <;> rfl

/-- Before a point the digits of the number are not written, and what is written is not an
expression. -/
theorem toSource_withSpellings_differs :
    let one := literal nowhere "" (.number ⟨0x3ff0000000000000⟩)
    let e := member nowhere one (identifier nowhere "x") false false
    (∀ n ∈ e.nodes, n.IsSpellable) ∧ e.toSource = .ok "().x" ∧
      e.withSpellings.toSource = .ok "(1).x" := by
  intro one e
  have hspellable : ∀ n ∈ e.nodes, n.IsSpellable := by
    intro n hn
    simp only [e, one, nodes, List.mem_cons, List.mem_append, List.not_mem_nil, or_false] at hn
    rcases hn with rfl | rfl | rfl
    · exact trivial
    · exact fun _ => ⟨rfl, rfl⟩
    · exact trivial
  exact ⟨hspellable, rfl, eq_ok_of_toOption (by decide +kernel)⟩

end Expr

end Estree
