import Estree.Proofs.Source.Lists
import Estree.Proofs.Source.Opening

/-!
# Runs read again

A tree that is written as a run is read as one, if the trees right below it are read again. These
are the cases of the induction over trees for the nodes at the tight end of the grammar:

* words and numbers, which are leaves (`readsRun_word`, `readsRun_literal`);
* arrays, whose elements are read as items (`readsRun_array`);
* `new` with its callee and its arguments (`readsRun_new`);
* member accesses and calls, optional or not, which go on with the run of their object
  (`readsRun_named`, `readsRun_computed`, `readsRun_call`, `readsRun_optionalCall`).

For the last ones the object has to be a run that may still grow (`RunsTo`), and the text of the
link has to be one that the object's last token does not run into: a name is ended by a point or a
bracket, while a number is not ended by a point (`EndsRun`).
-/

open Estree.Expr

namespace Estree

open Grammar Token

/-- A word that is not reserved is an identifier. -/
theorem Leaf.ofWord_eq_identifier {span : Span} {name : String}
    (h : (Expr.identifier span name).isReserved = false) :
    Leaf.ofWord span name = .identifier span name := by
  have hne : ∀ word ∈ reservedWords, name ≠ word := by
    rintro word hword rfl
    rw [isReserved, List.contains_iff_mem.2 hword] at h
    cases h
  unfold Leaf.ofWord
  split
  next => exact absurd rfl (hne "this" (by decide))
  next => exact absurd rfl (hne "true" (by decide))
  next => exact absurd rfl (hne "false" (by decide))
  next => exact absurd rfl (hne "null" (by decide))
  next => rfl

namespace Source

variable {depth : Nat} {e : Expr} {es : List Expr} {span : Span} {isDigits hasCall : Bool}
  {c : Cursor} {text rest : List Char}

/-! ## Leaves -/

/-- A word other than `new` is a primary expression. -/
theorem derives_word {word : String} {c' : Cursor} (hname : IsName word) (hnew : word ≠ "new")
    (hc : c.Passes word.toList c') (hrest : ∀ x ∈ c'.rest.head?, Text.isIdentifierPart x = false) :
    Derives (depth + 1) .primary c
      (some (Leaf.ofWord ⟨c.position, c.position + Text.utf8Size word.toList⟩ word)) c' := by
  have hword := isName_leadingWord hname hc hrest
  have hnotNew : word.toList ≠ "new".toList := fun heq => hnew (String.toList_inj.1 heq)
  have hprimary : Derives depth .primaryForm c _ _ :=
    .word hword (isName_starts hname).ne_nil hnotNew
  rw [String.ofList_toList, ← hc.eq_skip] at hprimary
  exact .primary hprimary

/-- A word that no further letter follows is read as the leaf for it. -/
theorem readsRun_word {word : String} (hname : IsName word) (hnew : word ≠ "new")
    (hnode : ∀ span, (Leaf.ofWord span word).SameAs e) (hspine : e.hasOptionalLink = false) :
    ReadsRun (depth + 1) word.toList e isDigits hasCall := by
  intro c rest hc hrest
  have hrest' := Cursor.skip_length_rest hc
  have hprimary : Derives (depth + 1) .primary c _ _ :=
    derives_word hname hnew (Cursor.passes_skip hc) (hrest'.symm ▸ hrest.word)
  exact ⟨_, _, runsTo_primary hprimary, hnode _, hspine.symm, hrest'⟩

/-- An identifier is read as such unless it is a reserved word. -/
theorem readsRun_identifier {name : String} (hname : IsName name)
    (hreserved : (identifier span name).isReserved = false) :
    ReadsRun (depth + 1) name.toList (.identifier span name) isDigits hasCall := by
  have hnew : name ≠ "new" := by
    rintro rfl
    cases hreserved
  refine readsRun_word hname hnew (fun nameSpan => ?_) rfl
  have hidentifier : Leaf.ofWord nameSpan name = .identifier nameSpan name :=
    Leaf.ofWord_eq_identifier hreserved
  rw [hidentifier]
  rfl

/-- A reserved word is read as the leaf that it stands for. -/
theorem readsRun_keyword {word : String} (hword : word ∈ reservedWords) (hnew : word ≠ "new")
    (hnode : ∀ span, (Leaf.ofWord span word).SameAs e) (hspine : e.hasOptionalLink = false) :
    ReadsRun (depth + 1) word.toList e isDigits hasCall :=
  readsRun_word (isName_of_mem_reservedWords hword) hnew hnode hspine

theorem readsRun_this : ReadsRun (depth + 1) "this".toList (.this span) isDigits hasCall :=
  readsRun_keyword (by decide) (by decide) (fun _ => rfl) rfl

/-- Keywords and numerals are read as the literals that they spell. -/
theorem readsRun_literal {raw : String} {value : LiteralValue} (h : Spells raw value) :
    ReadsRun (depth + 1) raw.toList (.literal span raw value)
      (literal span raw value).bareDigits?.isSome hasCall := by
  cases h with
  | true => exact readsRun_keyword (by decide) (by decide) (fun _ => rfl) rfl
  | false => exact readsRun_keyword (by decide) (by decide) (fun _ => rfl) rfl
  | null => exact readsRun_keyword (by decide) (by decide) (fun _ => rfl) rfl
  | number hnumeral hread =>
    intro c rest hc hrest
    have hends : EndsNumeral raw.toList rest := by
      refine ⟨hrest.word, fun hdigits => hrest.point ?_⟩
      rw [bareDigits?, if_pos hdigits]
      rfl
    have hrun := Leaf.number_run hnumeral hread hc hends
    have hstart : Pattern.numberStart.isAtStart c.rest = true := by
      rw [hc]
      exact Pattern.numberStart_of_isNumeral hnumeral
    rw [String.ofList_toList] at hrun
    have hprimary : Derives (depth + 1) .primary c _ _ := .primary (.number hstart hrun)
    exact ⟨_, _, runsTo_primary hprimary, rfl, rfl, Cursor.skip_length_rest hc⟩

/-! ## Arrays -/

/-- An array is read again if its elements are. -/
theorem readsRun_array {elements : List (Option Expr)}
    (h : ∀ e, some e ∈ elements → ReadsItem depth e) (hdepth : 4 ≤ depth) :
    ReadsRun (depth + 1) (array span elements).text (.array span elements) isDigits hasCall := by
  intro c rest hc _
  have hc₀ : c.rest = '[' :: (separated (textsWithEnd elements) ++ ']' :: rest) := by
    rw [hc]
    show '[' :: (separated (textsWithEnd elements) ++ [']'] ++ rest) = _
    rw [List.append_assoc]
    rfl
  have hc₁ : (c.skip 1).pastBlanks.rest = separated (textsWithEnd elements) ++ ']' :: rest := by
    rw [Cursor.pastBlanks_rest, Cursor.skip_rest, hc₀]
    exact dropWhile_elements h
  obtain ⟨elements', c', hderives, hsame, hc'⟩ := derives_elements h hdepth hc₁
  have harray : Derives depth (.array c.position) (c.skip 1) (.array _ elements') (c'.skip 1) :=
    .array hderives (by rw [hc']; rfl)
  have hprimary := Derives.primary (.arrayLiteral (by rw [hc₀]; rfl) harray)
  refine ⟨_, _, runsTo_primary hprimary, ?_, rfl, ?_⟩
  · show SameAs (.array _ elements') (.array span elements)
    rw [SameAs, unplaced, unplaced, unplacedSlots_eq_map, unplacedSlots_eq_map, hsame]
  · rw [Cursor.skip_rest, hc']
    rfl

/-! ## Links -/

/-- Nothing is skipped before a character that is no blank. -/
theorem pastBlanks_rest_cons {x : Char} {xs : List Char} (hc : c.rest = x :: xs)
    (hx : Text.isBlank x = false) : c.pastBlanks.rest = x :: xs := by
  rw [Cursor.pastBlanks_rest, hc, dropWhile_cons_nonblank hx]

/-- A run is read up to an access, if the point of the access is no part of a number. -/
theorem runsTo_access {access : Access} (hrun : ReadsRun depth text e isDigits hasCall)
    (hc : c.rest = text ++ (access.text.toList ++ rest))
    (hpoint : isDigits = true → access ≠ ⟨false, false⟩)
    (hnext : access = ⟨true, false⟩ → ∀ x ∈ rest.head?, x ≠ '[' ∧ x.isDigit = false) :
    ∃ run c₁, RunsTo depth c run hasCall c₁ ∧ run.node.SameAs e ∧
      run.hasOptional = e.hasOptionalLink ∧ access? c₁.pastBlanks.rest = some access ∧
      (c₁.pastBlanks.skip access.text.length).rest = rest := by
  -- The run ends at the first character of the access.
  obtain ⟨x, xs, htext, hword, hblank, hx⟩ : ∃ x xs, access.text.toList = x :: xs ∧
      Text.isIdentifierPart x = false ∧ Text.isBlank x = false ∧
        (x = '.' → access = ⟨false, false⟩) := by
    rcases access with ⟨_ | _, _ | _⟩ <;>
      exact ⟨_, _, rfl, Text.isIdentifierPart_of_mem_symbols (by decide), rfl, by decide⟩
  have hends : EndsRun isDigits (access.text.toList ++ rest) := by
    rw [htext]
    refine ⟨fun y hy => ?_, fun hdigits hy => ?_⟩
    · obtain rfl := Option.some.inj hy
      exact hword
    · exact hpoint hdigits (hx (Option.some.inj hy))
  obtain ⟨run, c₁, hruns, hsame, hoptional, hc₁⟩ := hrun c _ hc hends
  have hblanks : c₁.pastBlanks.rest = access.text.toList ++ rest := by
    rw [htext] at hc₁ ⊢
    exact pastBlanks_rest_cons hc₁ hblank
  refine ⟨run, c₁, hruns, hsame, hoptional, ?_, Cursor.skip_length_rest hblanks⟩
  rw [hblanks]
  exact access?_text hnext

/-- A parenthesis ends whatever comes before it. -/
theorem endsRun_arguments : EndsRun isDigits (argumentsText (textsOfList es) ++ rest) where
  word x hx := by
    obtain rfl := Option.some.inj hx
    exact Text.isIdentifierPart_of_mem_symbols (by decide)
  point _ := nofun

/-- A call without `?.`. -/
theorem readsRun_call {callee : Expr} {hasCall₀ : Bool}
    (hcallee : ReadsRun depth text callee isDigits hasCall₀) (hes : ∀ e ∈ es, ReadsItem depth e)
    (hdepth : 4 ≤ depth) {isDigits' : Bool} :
    ReadsRun depth (text ++ argumentsText (textsOfList es)) (.call span callee es false) isDigits'
      true := by
  intro c rest hc _
  rw [List.append_assoc] at hc
  obtain ⟨run, c₁, hruns, hsame, hoptional, hc₁⟩ := hcallee c _ hc endsRun_arguments
  have hblanks := pastBlanks_rest_cons hc₁ rfl
  obtain ⟨es', c₂, hderives, hsames, hc₂⟩ := derives_arguments hes hdepth hblanks
  have haccess : access? c₁.pastBlanks.rest = none := by
    rw [hblanks]
    rfl
  refine ⟨_, c₂, hruns.called haccess (by rw [hblanks]; rfl) hderives, ?_, ?_, hc₂⟩
  · rw [callLinks, SameAs, unplaced, unplaced, hsame, unplacedList_eq_map, unplacedList_eq_map,
      hsames]
  · rw [callLinks, hasOptionalLink, hoptional, Bool.or_comm]

/-- A call with `?.`. -/
theorem readsRun_optionalCall {callee : Expr}
    (hcallee : ReadsRun depth text callee isDigits hasCall)
    (hes : ∀ e ∈ es, ReadsItem depth e) (hdepth : 4 ≤ depth) {isDigits' : Bool} :
    ReadsRun depth (text ++ '?' :: '.' :: argumentsText (textsOfList es))
      (.call span callee es true) isDigits' true := by
  intro c rest hc _
  have hc₀ : c.rest = text ++ ((⟨true, false⟩ : Access).text.toList ++
      (argumentsText (textsOfList es) ++ rest)) := by
    rw [hc, List.append_assoc]
    rfl
  have hnext : ∀ x ∈ (argumentsText (textsOfList es) ++ rest).head?,
      x ≠ '[' ∧ x.isDigit = false := by
    rintro x ⟨⟩
    decide
  obtain ⟨run, c₁, hruns, hsame, -, haccess, hc₁⟩ :=
    runsTo_access hcallee hc₀ nofun fun _ => hnext
  have hopen := pastBlanks_rest_cons hc₁ rfl
  obtain ⟨es', c₂, hderives, hsames, hc₂⟩ := derives_arguments hes hdepth hopen
  -- `?.(` is read as an access first, and goes on as a call.
  have hstep : AccessStep depth run ⟨true, false⟩ (c₁.pastBlanks.skip _) _ c₂ :=
    accessStep_call rfl (by rw [hopen]; rfl) hderives
  refine ⟨_, c₂, (hruns.accessed haccess hstep).withCall, ?_, ?_, hc₂⟩
  · rw [callLinks, SameAs, unplaced, unplaced, hsame, unplacedList_eq_map, unplacedList_eq_map,
      hsames]
  · rw [callLinks, hasOptionalLink, Bool.or_true, Bool.true_or]
    rfl

/-- A member access in brackets. -/
theorem readsRun_computed {object property : Expr} {optional : Bool}
    (hobject : ReadsRun depth text object isDigits hasCall)
    (hproperty : ReadsExpressions depth property.text property) (hstarts : Starts property.text)
    {isDigits' : Bool} :
    ReadsRun depth (text ++ ((⟨optional, true⟩ : Access).text.toList ++ (property.text ++ [']'])))
      (.member span object property true optional) isDigits' hasCall := by
  intro c rest hc _
  rw [List.append_assoc, List.append_assoc, List.append_assoc] at hc
  obtain ⟨run, c₁, hruns, hsame, hoptional, haccess, hc₁⟩ := runsTo_access hobject hc nofun nofun
  obtain ⟨property', c₂, hderives, hsame', hc₂⟩ :=
    derives_sequence hproperty (hstarts.pastBlanks_rest hc₁) (.closer (Or.inr rfl))
  have hclose := pastBlanks_rest_cons hc₂ rfl
  have hstep : AccessStep depth run ⟨optional, true⟩ (c₁.pastBlanks.skip _) _
      (c₂.pastBlanks.skip 1) :=
    accessStep_computed rfl hderives (by rw [hclose]; rfl)
  refine ⟨_, _, hruns.accessed haccess hstep, ?_, ?_, ?_⟩
  · rw [memberLinks, SameAs, unplaced, unplaced, hsame, hsame']
  · rw [memberLinks, hasOptionalLink, hoptional, Bool.or_comm]
  · rw [Cursor.skip_rest, hclose]
    rfl

/-- A callee that the arguments of `new` follow is read up to them. -/
theorem readsRun_new {callee : Expr} (hcallee : ReadsRun depth text callee isDigits false)
    (hstarts : Starts text) (hspine : callee.hasOptionalLink = false)
    (hchain : callee.isChain = false) (hes : ∀ e ∈ es, ReadsItem depth e) (hdepth : 4 ≤ depth)
    {isDigits' : Bool} :
    ReadsRun (depth + 1) ('n' :: 'e' :: 'w' :: ' ' :: (text ++ argumentsText (textsOfList es)))
      (.new span callee es) isDigits' hasCall := by
  intro c rest hc _
  have hc₀ : c.rest =
      "new".toList ++ ' ' :: (text ++ (argumentsText (textsOfList es) ++ rest)) := by
    rw [hc, ← List.append_assoc text]
    rfl
  have hword : Text.leadingWord c.rest = "new".toList := by
    rw [hc₀]
    refine isName_leadingWord_append (isName_of_mem_reservedWords (by decide)) ?_
    rintro x ⟨⟩
    exact Text.isIdentifierPart_of_mem_symbols (by decide)
  have hc₁ := hstarts.pastBlanks_rest_space (Cursor.skip_length_rest hc₀)
  obtain ⟨run, c₂, hruns, hsame, hoptional, hc₂⟩ := hcallee _ _ hc₁ endsRun_arguments
  have hblanks := pastBlanks_rest_cons hc₂ rfl
  obtain ⟨es', c', hderives, hsames, hc'⟩ := derives_arguments hes hdepth hblanks
  have hconstruct : Derives depth (.construct c.position) (c.skip "new".toList.length) _ c' :=
    hruns.construct (by rw [hblanks]; rfl) (by rw [hblanks]; rfl) hderives (hoptional.trans hspine)
      (hsame.isChain_eq.trans hchain)
  refine ⟨_, c', runsTo_primary (.primary (.new hword hconstruct)), ?_, rfl, hc'⟩
  rw [SameAs, unplaced, unplaced, hsame, unplacedList_eq_map, unplacedList_eq_map, hsames]

/-- No name begins like a bracket or a digit. -/
theorem isName_head {name : String} (h : IsName name) :
    ∀ x ∈ (name.toList ++ rest).head?, x ≠ '[' ∧ x.isDigit = false := by
  obtain ⟨y, ys, hlist, hy, -⟩ := h
  rw [hlist]
  intro x hx
  obtain rfl := Option.some.inj hx
  refine ⟨?_, Bool.eq_false_iff.2 fun hdigit => ?_⟩
  · rintro rfl
    exact Text.not_mem_symbols hy (by decide)
  · rw [Text.isIdentifierStart_of_isDigit hdigit] at hy
    cases hy

/-- A member access by name. -/
theorem readsRun_named {object : Expr} {nameSpan : Span} {name : String} {optional : Bool}
    (hobject : ReadsRun depth text object false hasCall) (hname : IsName name) {isDigits' : Bool} :
    ReadsRun depth (text ++ ((⟨optional, false⟩ : Access).text.toList ++ name.toList))
      (.member span object (.identifier nameSpan name) false optional) isDigits' hasCall := by
  intro c rest hc hrest
  rw [List.append_assoc, List.append_assoc] at hc
  have hstarts := isName_starts hname
  obtain ⟨run, c₁, hruns, hsame, hoptional, haccess, hc₁⟩ :=
    runsTo_access hobject hc nofun fun _ => isName_head hname
  have hblanks := hstarts.pastBlanks_rest hc₁
  have hrest' := Cursor.skip_length_rest hblanks
  obtain ⟨-, hparen, hproperty⟩ :=
    propertyName_of_isName hname (Cursor.passes_skip hblanks) (hrest'.symm ▸ hrest.word)
  have hstep : AccessStep depth run ⟨optional, false⟩ (c₁.pastBlanks.skip _) _ _ :=
    accessStep_named rfl hparen hproperty
  refine ⟨_, _, hruns.accessed haccess hstep, ?_, ?_, hrest'⟩
  · rw [memberLinks, SameAs, unplaced, unplaced, hsame]
    rfl
  · rw [memberLinks, hasOptionalLink, hoptional, Bool.or_comm]

end Source

end Estree
