import Estree.Proofs.Expr.Inspected
import Estree.Proofs.Grammar.Shape

/-!
# The text of a tree

The writing of a tree does two things at once: it puts a text together, and it stops at the first
defect that it comes upon. Here they are taken apart.

> `text`: the text of a tree, put together without any check.

> `firstDefect?`: the defect of the first node that has one, in the order of writing (`inspected`).

> `sourceText_eq`: the writing yields this text unless there is this defect, for trees whose
> literals have a spelling.

`outcome` is the result that the two make up, and the induction over the tree only has to show that
each step of the writing is one: a check before a text (`outcome_check`), one text after another
(`outcome_bind`), with the defects of the first one before those of the second.

On trees that fit together no node has a defect, since every way for a node to fit excludes one
(`HasShape.isDefective_eq_false`), and so the writing never fails (`sourceText_eq_text`). Whatever
is read fits together, so it can be written (`toSource_of_parseWithin`). Of the two ways in which a
text can have no canonical form (`canonical_eq_error`), only that it cannot be read is left.
-/

namespace Estree

namespace Expr

open Source

variable {e : Expr} {es : List Expr}

/-- Whether the object of an access by name is in parentheses. Digits are, because a point after
them would belong to them. -/
def isGroupedBeforeName (e : Expr) : Bool :=
  e.bareDigits?.isSome || e.isGroupedBeforeLink

mutual

/-- The text of a tree that fits together. -/
def text : Expr → List Char
  | literal _ raw _ => raw.toList
  | identifier _ name => name.toList
  | this _ => ['t', 'h', 'i', 's']
  | array _ elements => elementsText elements (textsOfSlots elements)
  | sequence _ expressions => separated (textsOfList expressions)
  | conditional _ test consequent alternate =>
    group (test.isGroupedAt (Level.conditional + 1)) test.text ++ ' ' :: '?' :: ' ' ::
      (group (consequent.isGroupedAt Level.conditional) consequent.text ++ ' ' :: ':' :: ' ' ::
        group (alternate.isGroupedAt Level.conditional) alternate.text)
  | new _ callee arguments =>
    'n' :: 'e' :: 'w' :: ' ' ::
      (group callee.isGroupedAfterNew callee.text ++ argumentsText (textsOfList arguments))
  | call _ callee arguments optional =>
    group callee.isGroupedBeforeLink callee.text ++
      ((if optional then ['?', '.'] else []) ++ argumentsText (textsOfList arguments))
  | member _ object property true optional =>
    group object.isGroupedBeforeLink object.text ++
      ((⟨optional, true⟩ : Access).text.toList ++ (property.text ++ [']']))
  | member _ object property false optional =>
    group object.isGroupedBeforeName object.text ++
      ((⟨optional, false⟩ : Access).text.toList ++ property.text)
  | chain _ expression => expression.text
  | update _ operator leading argument =>
    if leading then operator.text.toList ++ argument.text
    else argument.text ++ operator.text.toList
  | unary _ operator _ argument =>
    unaryText operator (group (argument.isGroupedAt Level.unary) argument.text)
  | binary _ operator left right =>
    infixText (.binary operator) (group (left.isGroupedBefore (.binary operator)) left.text)
      (group (right.isGroupedAfter (.binary operator)) right.text)
  | logical _ operator left right =>
    infixText (.logical operator) (group (left.isGroupedBefore (.logical operator)) left.text)
      (group (right.isGroupedAfter (.logical operator)) right.text)

/-- The texts of trees between commas. -/
def textsOfList : List Expr → List (List Char)
  | [] => []
  | e :: rest => group (e.isGroupedAt Level.conditional) e.text :: textsOfList rest

/-- The texts of elements between commas; that of a hole is empty. -/
def textsOfSlots : List (Option Expr) → List (List Char)
  | [] => []
  | none :: rest => [] :: textsOfSlots rest
  | some e :: rest => group (e.isGroupedAt Level.conditional) e.text :: textsOfSlots rest

end

/-! ## What is written, or which defect is reported -/

/-- The defect that the writing comes upon at the node itself. -/
def defect? : Expr → Option Malformed
  | sequence _ expressions => if expressions.length < 2 then some .shortSequence else none
  | member _ _ property false _ =>
    if property.isIdentifier then none else some .propertyNotIdentifier
  | chain _ expression => if expression.isChain then some .nestedChain else none
  | update _ _ _ argument => if !argument.isPlace then some .updateTarget else none
  | _ => none

/-- The defect of the first node that has one, in the order of writing. -/
def firstDefect? (e : Expr) : Option Malformed :=
  e.inspected.findSome? defect?

/-- Whether the writing comes upon a defect at the node itself. -/
def isDefective : Expr → Bool
  | sequence _ expressions => expressions.length < 2
  | member _ _ property false _ => !property.isIdentifier
  | chain _ expression => expression.isChain
  | update _ _ _ argument => !argument.isPlace
  | _ => false

/-- A literal is written as it is spelled. -/
def HasSpelling : Expr → Prop
  | literal _ raw _ => raw ≠ ""
  | _ => True

/-- A node is defective if some defect of it is known. -/
theorem isDefective_eq (e : Expr) : e.isDefective = e.defect?.isSome := by
  cases e with
  | sequence span es =>
    rw [isDefective, defect?]
    split <;> simp [*]
  | member span object property computed optional =>
    cases computed with
    | true => rfl
    | false =>
      rw [isDefective, defect?]
      cases property.isIdentifier <;> rfl
  | chain span expression =>
    rw [isDefective, defect?]
    cases expression.isChain <;> rfl
  | update span operator leading argument =>
    rw [isDefective, defect?]
    cases argument.isPlace <;> rfl
  | _ => rfl

/-- No defect is reported exactly if no node has one. -/
theorem firstDefect?_eq_none_iff :
    e.firstDefect? = none ↔ ∀ n ∈ e.nodes, n.isDefective = false := by
  rw [firstDefect?, List.findSome?_eq_none_iff]
  refine forall_congr' fun n => ?_
  rw [mem_inspected_iff, isDefective_eq, Option.isSome_eq_false_iff, Option.isNone_iff_eq_none]

/-- A node that is inspected before those below it has its own defect reported first. -/
theorem firstDefect?_eq {below : List Expr} (h : e.inspected = e :: below) :
    e.firstDefect? = e.defect?.or (below.findSome? defect?) := by
  rw [firstDefect?, h, List.findSome?_cons]
  cases e.defect? <;> rfl

/-- Where the node itself has no defect, the first one is below it. -/
theorem firstDefect?_below {below : List Expr} (h : e.inspected = e :: below)
    (hsound : e.defect? = none) : e.firstDefect? = below.findSome? defect? := by
  rw [firstDefect?_eq h, hsound, Option.none_or]

/-- A text, unless there is a defect. -/
def outcome {α : Type} (defect? : Option Malformed) (written : α) : Except Malformed α :=
  defect?.elim (.ok written) .error

/-- A defect is the outcome exactly if it is there. -/
theorem outcome_eq_error_iff {α : Type} {defect? : Option Malformed} {written : α}
    {malformed : Malformed} :
    outcome defect? written = .error malformed ↔ defect? = some malformed := by
  cases defect? <;> simp [outcome]

/-- Of two defects the one that is come upon first is reported. -/
theorem outcome_bind {α β : Type} {first? second? : Option Malformed} {a : α} {b : β}
    {m : Except Malformed α} {next : α → Except Malformed β} (hm : m = outcome first? a)
    (hnext : next a = outcome second? b) : (m >>= next) = outcome (first?.or second?) b := by
  subst hm
  cases first? with
  | none => exact hnext
  | some malformed => rfl

/-- A step that has no defect of its own leaves the outcome to the one before it. -/
theorem outcome_pure {α β : Type} {first? : Option Malformed} {a : α} {b : β}
    {m : Except Malformed α} {next : α → Except Malformed β} (hm : m = outcome first? a)
    (hnext : next a = .ok b) : (m >>= next) = outcome first? b := by
  rw [← Option.or_none (o := first?)]
  exact outcome_bind hm hnext

/-- So does a function of the text. -/
theorem outcome_map {α β : Type} {first? : Option Malformed} {a : α} {m : Except Malformed α}
    (hm : m = outcome first? a) (f : α → β) : f <$> m = outcome first? (f a) := by
  subst hm
  cases first? <;> rfl

/-- A check that finds nothing leaves what comes after it as it is. -/
theorem outcome_check {β : Type} {condition : Prop} [Decidable condition] {malformed : Malformed}
    {second? : Option Malformed} {b : β} {next : PUnit → Except Malformed β}
    (hnext : next ⟨⟩ = outcome second? b) :
    (if condition then (throw malformed : Except Malformed PUnit) >>= next else next ⟨⟩) =
      outcome ((if condition then some malformed else none).or second?) b := by
  by_cases h : condition
  · rw [if_pos h, if_pos h]
    rfl
  · rw [if_neg h, if_neg h]
    exact hnext

/-- The texts of several trees: the first defect of any of them in their order. -/
theorem operandTexts_eq (h : ∀ x ∈ es, x.sourceText = outcome x.firstDefect? x.text) :
    operandTexts es = outcome ((inspectedOfList es).findSome? defect?) (textsOfList es) := by
  induction es with
  | nil => rfl
  | cons e rest ih =>
    obtain ⟨he, hrest⟩ := List.forall_mem_cons.1 h
    rw [operandTexts, inspectedOfList, List.findSome?_append]
    exact outcome_bind he (outcome_pure (ih hrest) rfl)

/-- The texts of the elements of an array, where holes have no defect. -/
theorem slotTexts_eq {elements : List (Option Expr)}
    (h : ∀ x, some x ∈ elements → x.sourceText = outcome x.firstDefect? x.text) :
    slotTexts elements =
      outcome ((inspectedOfSlots elements).findSome? defect?) (textsOfSlots elements) := by
  induction elements with
  | nil => rfl
  | cons slot rest ih =>
    have hrest := ih fun x hx => h x (List.mem_cons_of_mem _ hx)
    cases slot with
    | none =>
      rw [slotTexts, inspectedOfSlots]
      exact outcome_pure hrest rfl
    | some e =>
      rw [slotTexts, inspectedOfSlots, List.findSome?_append]
      exact outcome_bind (h e (List.mem_cons_self ..)) (outcome_pure hrest rfl)

/-- Digits alone are their own text. -/
theorem text_of_bareDigits? {digits : List Char} (h : e.bareDigits? = some digits) :
    e.text = digits := by
  cases e with
  | literal span raw value =>
    cases value with
    | number value =>
      rw [bareDigits?] at h
      split at h
      next => exact Option.some.inj h
      next => cases h
    | _ => cases h
  | _ => cases h

/-- The test for an identifier, with its parts. -/
theorem exists_identifier (h : e.isIdentifier = true) : ∃ span name, e = identifier span name := by
  cases e with
  | identifier span name => exact ⟨span, name, rfl⟩
  | _ => cases h

/-- The digits of a number have no defect. -/
theorem firstDefect?_of_bareDigits? {digits : List Char} (h : e.bareDigits? = some digits) :
    e.firstDefect? = none := by
  cases e with
  | literal => rfl
  | _ => cases h

/-- A tree is written as its text, or refused for the first defect in the order of writing. -/
theorem sourceText_eq (hspelled : ∀ n ∈ e.nodes, n.HasSpelling) :
    e.sourceText = outcome e.firstDefect? e.text := by
  induction e using Expr.induction with
  | h e ih =>
    have hchild : ∀ x ∈ e.children, x.sourceText = outcome x.firstDefect? x.text := fun x hx =>
      ih x hx fun n hn => hspelled n (mem_nodes_of_mem_children hx hn)
    replace hspelled := hspelled e (mem_nodes_self e)
    cases e with
    | literal span raw value =>
      have hraw : ¬raw.isEmpty = true := by
        rw [String.isEmpty_iff]
        exact hspelled
      rw [sourceText, if_neg hraw]
      rfl
    | identifier | this => rfl
    | array span elements =>
      have hslots : ∀ x, some x ∈ elements → x.sourceText = outcome x.firstDefect? x.text :=
        fun x hx => hchild x (List.mem_filterMap.2 ⟨some x, hx, rfl⟩)
      rw [sourceText]
      exact outcome_pure (slotTexts_eq hslots) rfl
    | sequence span es =>
      rw [sourceText, firstDefect?_eq rfl]
      exact outcome_check (outcome_pure (operandTexts_eq hchild) rfl)
    | conditional span test consequent alternate =>
      rw [sourceText, firstDefect?_below rfl rfl, List.findSome?_append, List.findSome?_append,
        Option.or_assoc]
      refine outcome_bind (hchild test (by simp [children])) ?_
      refine outcome_bind (hchild consequent (by simp [children])) ?_
      exact outcome_pure (hchild alternate (by simp [children])) rfl
    | new span callee es =>
      have hes := operandTexts_eq fun x hx => hchild x (List.mem_cons_of_mem _ hx)
      rw [sourceText, firstDefect?_below rfl rfl, List.findSome?_append]
      exact outcome_bind (hchild callee (List.mem_cons_self ..)) (outcome_pure hes rfl)
    | call span callee es optional =>
      have hes := operandTexts_eq fun x hx => hchild x (List.mem_cons_of_mem _ hx)
      rw [sourceText, firstDefect?_below rfl rfl, List.findSome?_append]
      exact outcome_bind (hchild callee (List.mem_cons_self ..)) (outcome_pure hes rfl)
    | member span object property computed optional =>
      have hobject := hchild object (List.mem_cons_self ..)
      cases computed with
      | true =>
        rw [sourceText, firstDefect?_below rfl rfl, List.findSome?_append]
        exact outcome_bind hobject (outcome_pure (hchild property (by simp [children])) rfl)
      | false =>
        rw [sourceText, firstDefect?, inspected, List.findSome?_append, text, isGroupedBeforeName]
        -- Digits before a point are written in parentheses without a look at their node.
        cases hdigits : object.bareDigits? with
        | some digits =>
          have hsound : object.inspected.findSome? defect? = none :=
            firstDefect?_of_bareDigits? hdigits
          rw [hsound, text_of_bareDigits? hdigits]
          cases property <;> rfl
        | none =>
          refine outcome_bind (outcome_map hobject _) ?_
          cases property <;> rfl
    | chain span expression =>
      rw [sourceText, firstDefect?_eq rfl]
      exact outcome_check (hchild expression (List.mem_cons_self ..))
    | update span operator leading argument =>
      rw [sourceText, firstDefect?_eq rfl]
      refine outcome_check (outcome_pure (hchild argument (List.mem_cons_self ..)) ?_)
      cases leading <;> rfl
    | unary span operator leading argument =>
      rw [sourceText, firstDefect?_below rfl rfl]
      exact outcome_pure (hchild argument (List.mem_cons_self ..)) rfl
    | binary span operator left right | logical span operator left right =>
      rw [sourceText, firstDefect?_below rfl rfl, List.findSome?_append]
      refine outcome_bind (hchild left (by simp [children])) ?_
      exact outcome_pure (hchild right (by simp [children])) rfl

/-- What fits together has spelled literals. -/
theorem HasShape.hasSpelling (h : e.HasShape) : e.HasSpelling := by
  cases e with
  | literal span raw value => exact (literal_sound h).1
  | _ => exact trivial

/-- No node that fits has a defect. -/
theorem HasShape.isDefective_eq_false (h : e.HasShape) : e.isDefective = false := by
  cases e with
  | sequence span es => exact decide_eq_false (Nat.not_lt.2 h)
  | member span object property computed optional =>
    cases computed with
    | true => rfl
    | false => simpa [isDefective] using h rfl
  | chain span expression => exact isChain_of_isLink (isLink_of_hasOptionalLink h)
  | update span operator leading argument =>
    have hplace : argument.isPlace = true := h
    simpa [isDefective] using hplace
  | _ => rfl

/-- A tree of which all nodes fit is written as its text. -/
theorem sourceText_eq_text (h : e.AllFit) : e.sourceText = .ok e.text := by
  have hsound : e.firstDefect? = none :=
    firstDefect?_eq_none_iff.2 fun n hn => (h n hn).shape.isDefective_eq_false
  rw [sourceText_eq fun n hn => (h n hn).shape.hasSpelling, hsound]
  rfl

/-- A tree that fits together is written as its text. -/
theorem toSource_eq_ok (h : e.AllFit) : e.toSource = .ok (String.ofList e.text) := by
  rw [toSource, sourceText_eq_text h]
  rfl

/-- A text has no canonical form if it cannot be read, or if the tree read cannot be written. -/
theorem canonical_eq_error {source : String} {error : CanonicalError}
    (h : canonical source = .error error) :
    (∃ syntaxError, error = .unreadable syntaxError ∧ parse source = .error syntaxError) ∨
      ∃ e malformed, parse source = .ok e ∧ e.toSource = .error malformed := by
  unfold canonical at h
  generalize parse source = outcome at h ⊢
  cases outcome with
  | error syntaxError =>
    obtain rfl := Except.error.inj h
    exact Or.inl ⟨syntaxError, rfl, rfl⟩
  | ok e =>
    dsimp only at h
    split at h
    next malformed htext => exact Or.inr ⟨e, malformed, rfl, htext⟩
    next => cases h

/-- Whatever is read can be written, so that a text has no canonical form only if it cannot be
read. -/
theorem toSource_of_parseWithin :
    (∀ limits source e, parseWithin limits source = .ok e → ∃ text, e.toSource = .ok text) ∧
      ∀ source error, canonical source = .error error →
        ∃ syntaxError, error = .unreadable syntaxError ∧ parse source = .error syntaxError := by
  have hwritten : ∀ limits source e, parseWithin limits source = .ok e →
      ∃ text, e.toSource = .ok text := fun _ _ _ h =>
    ⟨_, toSource_eq_ok (reads_of_parseWithin_eq_ok h).isOperand.allFit⟩
  refine ⟨hwritten, fun source error herror => ?_⟩
  rcases canonical_eq_error herror with hunreadable | ⟨e, malformed, hparse, hmalformed⟩
  · exact hunreadable
  · obtain ⟨text, htext⟩ := hwritten .standard source e hparse
    rw [htext] at hmalformed
    cases hmalformed

/-- One text that is read and written, and one that is not read. -/
theorem toSource_of_parseWithin_chain :
    (∃ e, parseWithin .standard "a?.b" = .ok e ∧ ∃ text, e.toSource = .ok text) ∧
      ∃ error, canonical "a." = .error error ∧
        ∃ syntaxError, error = .unreadable syntaxError ∧ parse "a." = .error syntaxError := by
  refine ⟨?_, ?_⟩
  · cases hparse : parseWithin .standard "a?.b" with
    | ok e => exact ⟨e, rfl, toSource_of_parseWithin.1 _ _ e hparse⟩
    | error error =>
      have hcheck : (parseWithin .standard "a?.b").isOk = true := rfl
      rw [hparse] at hcheck
      cases hcheck
  · cases hcanonical : canonical "a." with
    | error error => exact ⟨error, rfl, toSource_of_parseWithin.2 _ error hcanonical⟩
    | ok text =>
      have hcheck : (canonical "a.").isOk = false := rfl
      rw [hcanonical] at hcheck
      cases hcheck

end Expr

end Estree
