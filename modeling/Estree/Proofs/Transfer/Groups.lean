import Estree.Proofs.Expr.Filled
import Estree.Proofs.Grammar.Reader
import Estree.Proofs.Grammar.Shape
import Estree.Proofs.Text.Slices
import Estree.Proofs.Transfer.Primaries

/-!
# Groups in place of identifiers

A text in parentheses is read as an operand, whatever stands around it: put in the place of an
identifier, it is read as the tree with the text's own tree there (`parseWithin_filled`).

> `ReadsWithin.group`: a text that is read as a tree is read in parentheses as a primary expression,
> wherever it stands.
> `Transfer.group`: the transfer that puts this group in the place of the identifier at a span.
> `Moves.reads`: a whole text is read in the new text, to its end.

Two things have to be seen to before. A text in parentheses may have blanks at both ends, and
productions differ in who passes them (`SkipsBlanks`, `EndsPast`). And the identifier is known by
its span only: the tree has it somewhere, but that the derivation has read a word there, which the
template replaces, has to be shown. If it had not, `this` in the place of the identifier would give
the same text as before and another tree, and a text is read in one way only (`Derives.unique`,
`not_forall_new_eq_old`).
-/

namespace Estree

open Text View

namespace Grammar

variable {depth : Nat} {c c' c₀ : Cursor} {p : Production} {v : p.Yield}

/-! ## Determinism -/

/-- What is read does not depend on the levels that are left. -/
theorem Derives.unique {depth' : Nat} {w : p.Yield} {c₁ : Cursor} (h : Derives depth p c v c')
    (h' : Derives depth' p c w c₁) : v = w ∧ c' = c₁ := by
  have hrank := rank_le p
  have haffords : Affords (16 * c.rest.length + 14) (max depth depth') depth p c :=
    ⟨by omega, Or.inl (Nat.le_max_left _ _)⟩
  have haffords' : Affords (16 * c.rest.length + 14) (max depth depth') depth' p c :=
    ⟨by omega, Or.inl (Nat.le_max_right _ _)⟩
  have hrun := (h.unfold_eq_ok haffords).symm.trans (h'.unfold_eq_ok haffords')
  exact ⟨(EStateM.Result.ok.inj hrun).1, (EStateM.Result.ok.inj hrun).2⟩

/-! ## Blanks around expressions -/

/-- The productions that look for their first operand past blanks. -/
def SkipsBlanks : Production → Prop
  | .expressions _ | .expression | .conditional | .operands _ | .climb _ | .unary | .unaryForm
  | .token => True
  | _ => False

/-- Blanks before an operand make no difference. -/
theorem derives_pastBlanks_iff (hp : SkipsBlanks p) :
    Derives depth p c.pastBlanks v c' ↔ Derives depth p c v c' := by
  -- Two cursors that come to the same place behind blanks.
  have hmove : ∀ {c₁ c₂ : Cursor}, c₁.pastBlanks = c₂.pastBlanks → Derives depth p c₁ v c' →
      Derives depth p c₂ v c' := by
    intro c₁ c₂ hc h
    induction h generalizing c₂ with
    | lastExpression _ hfirst hcomma ih => exact .lastExpression (ih hp hc) hfirst hcomma
    | moreExpressions _ hcomma hes ih => exact .moreExpressions (ih trivial hc) hcomma hes
    | expression _ ih => exact .expression (ih trivial hc)
    | unconditional _ hquestion ih => exact .unconditional (ih trivial hc) hquestion
    | conditional _ hquestion hconsequent hcolon halternate ih =>
      exact .conditional (ih trivial hc) hquestion hconsequent hcolon halternate
    | operands _ ih => exact .operands (ih trivial hc)
    | noOperand h => exact .noOperand (hc ▸ h)
    | climb hleft h =>
      rw [hc] at hleft h
      exact .climb hleft h
    | unary _ ih => exact .unary (ih trivial hc)
    | unaryOperator hop h =>
      rw [hc] at hop h ⊢
      exact .unaryOperator hop h
    | noUnaryOperator hop h =>
      rw [hc] at hop h
      exact .noUnaryOperator hop h
    | noToken h => exact .noToken (hc ▸ h)
    | token hprimary hrun hop => exact .token (hc ▸ hprimary) hrun hop
    | trailingUpdate hprimary hrun hop hplace =>
      exact .trailingUpdate (hc ▸ hprimary) hrun hop hplace
    | _ => exact hp.elim
  exact ⟨hmove c.pastBlanks_pastBlanks, hmove c.pastBlanks_pastBlanks.symm⟩

/-- The expressions of a sequence are read with the blanks after them. -/
def EndsPast : Production → Cursor → Prop
  | .expressions _, c' => c'.pastBlanks = c'
  | _, _ => True

/-- Expressions of a sequence end past blanks. -/
theorem Derives.endsPast (h : Derives depth p c v c') : EndsPast p c' := by
  induction h with
  | lastExpression => exact Cursor.pastBlanks_pastBlanks _
  | moreExpressions _ _ _ _ ih => exact ih
  | _ => trivial

/-- A sequence that is no group is made of its expressions. -/
theorem Derives.exists_expressions {e? : Option Expr}
    (h : Derives depth (.sequence false) c e? c') :
    ∃ es, Derives depth (.expressions true) c es c' ∧ e? = sequenceNode? none es := by
  cases h with
  | ungrouped h => exact ⟨_, (derives_pastBlanks_iff (p := .expressions true) trivial).1 h, rfl⟩

/-! ## Groups -/

/-- Without offsets, a group is the sequence within. -/
theorem same_sequenceNode? {x : View} (hoffset : ∀ p q, x.offset p = x.offset q)
    (span? span?' : Option Span) (es : List Expr) :
    x.Same x (sequenceNode? span? es) (sequenceNode? span?' es) := by
  have hspan : ∀ s s' : Span, s.relocated x.offset = s'.relocated x.offset :=
    fun _ _ => congrArg₂ Span.mk (hoffset _ _) (hoffset _ _)
  rcases es with _ | ⟨first, _ | ⟨second, rest⟩⟩
  · exact same_none
  · rfl
  · refine Same.some ?_
    show x.tree (.sequence _ _) = x.tree (.sequence _ _)
    rw [tree_sequence, tree_sequence, hspan]

/-- A text that is read is read in parentheses. -/
theorem ReadsWithin.group {source : String} {e : Expr} (h : ReadsWithin depth source e)
    (levels : Nat) {d d' : Cursor} (hd : d.Passes ('(' :: (source.toList ++ [')'])) d') :
    ∃ e', Derives (depth + levels) .primaryForm d (some e') d' ∧
      e'.relocated (fun _ => 0) = e.relocated fun _ => 0 := by
  obtain ⟨c', hderives, hend⟩ := h
  obtain ⟨es, hes, hnode⟩ := hderives.exists_expressions
  have hpastEnd : c'.pastBlanks = c' := hes.endsPast
  have hrest : c'.rest = [] := hpastEnd ▸ hend
  obtain ⟨m, hm, hmoves⟩ := hes.transfers none
  have hold : m.old = source.toList := by
    have hpasses := hm.passes.rest_eq
    rw [hrest, List.append_nil] at hpasses
    exact hpasses.symm
  let x := Transfer.plain (fun _ => 0) (fun _ _ => rfl) [] levels
  -- The text stands between the parentheses, and the closing one ends it.
  have hopen : d.rest.head? = some '(' := hd.head?_rest
  have hpast : d.pastBlanks = d := Cursor.pastBlanks_of_cons hd.rest_eq (by decide)
  have hd₁ : (d.skip 1).Passes (source.toList ++ [')']) d' :=
    (@Cursor.Passes.split d d' ['('] _ hd).2
  obtain ⟨hd₁, hd₂⟩ := hd₁.split
  have hclose : ((d.skip 1).skip source.toList.length).rest.head? = some ')' := by
    rw [hd₂.rest_eq]
    rfl
  have hnew : m.new x.text = source.toList := hm.isAt.new_eq_old.trans hold
  obtain ⟨es', hes', hsame⟩ := (hmoves x rfl).derives (hd₁.of_eq hnew.symm) rfl
    (follows_closer _ hclose (by decide)) (.expressions true)
  have hne : es' ≠ [] := hsame.ne_nil (by rintro rfl; cases hnode)
  rw [← hpast] at hes' hclose
  have hgrouped := Derives.grouped (by rwa [hpast]) hes' hclose hne
  generalize some (Span.mk d.pastBlanks.position _) = span? at hgrouped
  have hinner : x.left.Same x.right (some e) (sequenceNode? none es') :=
    hnode ▸ hsame.sequenceNode? x.comparable rfl
  obtain ⟨e', he', hsame'⟩ := Same.exists_some
    (Eq.trans hinner (same_sequenceNode? (fun _ _ => rfl) none span? es'))
  rw [he', hpast, Nat.add_comm] at hgrouped
  obtain rfl : d' = ((d.skip 1).skip source.toList.length).skip 1 := hd₂.eq_skip
  exact ⟨e', .group hopen hgrouped, Eq.symm hsame'⟩

/-- The transfer that puts a text in parentheses in the place of an identifier. -/
def Transfer.group (span : Span) {source : String} {e : Expr} (h : ReadsWithin depth source e) :
    Transfer where
  offset := Function.const Nat 0
  offset_add _ _ := rfl
  hole? := some ⟨span, e⟩
  text := source.toList
  levels := depth
  offset_eq _ _ _ := rfl
  fills := by
    intro hole hhole levels d d' hd
    obtain rfl := Option.some.inj hhole
    exact h.group levels hd

/-- What a transferred reading yields, with the new text to its end. -/
theorem Moves.reads {x : Transfer} {m : Template} {source : String} {e : Expr} {depth : Nat}
    {c' : Cursor} (h : Moves x m depth (.sequence false) (.ofString source) (some e) c')
    (hoffset : ∀ p q, x.offset p = x.offset q) (hend : c'.pastBlanks.rest = []) :
    ∃ e', ReadsWithin (x.levels + depth) (String.ofList (m.new x.text ++ c'.rest)) e' ∧
      x.left.Same x.right e e' := by
  have hrest : (Cursor.ofString (String.ofList (m.new x.text ++ c'.rest))).rest =
      m.new x.text ++ c'.rest := String.toList_ofList
  have hpasses := Cursor.passes_skip hrest
  have hrest' := Cursor.skip_length_rest hrest
  have hfollows : Follows true c'.rest c'.rest := .refl c'.rest
  obtain ⟨e?', he', hsame?⟩ := h.derives hpasses (hoffset _ _) (by rwa [hrest']) (.sequence false)
  obtain ⟨e', rfl, hsame⟩ := hsame?.exists_some
  refine ⟨e', ⟨_, he', ?_⟩, hsame⟩
  rw [Cursor.pastBlanks_rest, hrest', ← Cursor.pastBlanks_rest, hend]

end Grammar

namespace Expr

open Grammar

variable {e filling : Expr} {source inner : String} {span : Span} {name : String}

/-- A template of the whole text has the word of every identifier that no node keeps. -/
theorem not_forall_new_eq_old {m : Template} {depth : Nat} {c' : Cursor}
    (hderives : Derives depth (.sequence false) (.ofString source) (some e) c')
    (hend : c'.pastBlanks.rest = []) (hm : Covers (some span) (.ofString source) m c')
    (hmoves : ∀ x : Transfer, x.at? = some span →
      Moves x m depth (.sequence false) (.ofString source) (some e) c')
    (hn : identifier span name ∈ e.nodes)
    (hfixed : ∀ n ∈ e.nodes, identifier span name ∉ n.fixed) : ¬∀ text, m.new text = m.old := by
  -- Otherwise the text is read as before with `this` in the place of the identifier.
  intro hnew
  have hthis : parseWithin .standard "this" = .ok (.this ⟨0, 4⟩) := rfl
  let x := Transfer.group span (readsWithin_of_parseWithin_eq_ok hthis)
  obtain ⟨e', ⟨d', hderives', -⟩, hsame⟩ := (hmoves x rfl).reads (fun _ _ => rfl) hend
  have hsource : String.ofList (m.new x.text ++ c'.rest) = source := by
    rw [hnew, ← hm.passes.rest_eq]
    exact String.ofList_toList
  rw [hsource] at hderives'
  obtain rfl : e = e' := Option.some.inj (hderives.unique hderives').1
  have hoperand := hderives.shaped e rfl
  have hspans := (hderives.located (Cursor.isIn_ofString source)).nodes e
    (List.mem_singleton_self e)
  refine not_sameAs_filled hoperand.allFit hn (fun n hn' k hk =>
    isAt_eq_false_of_fixed hspans hn hn' (hfixed n hn') hk) (s := ⟨0, 4⟩) ?_
  rw [SameAs, ← relocated_const, ← relocated_const]
  exact hsame

/-- A text in parentheses stands for itself: in the place of an identifier, other than the name of a
member access, what is updated and what `new` calls, it is read as the tree with its own tree
there. -/
theorem parseWithin_filled {limits innerLimits : Limits} (h : parseWithin limits source = .ok e)
    (hn : identifier span name ∈ e.nodes) (hfixed : ∀ n ∈ e.nodes, identifier span name ∉ n.fixed)
    (hinner : parseWithin innerLimits inner = .ok filling) :
    ∃ text, span.replaced? source ("(" ++ inner ++ ")") = some text ∧
      ∀ wide : Limits, wide.exceeded? text = none →
        4 * (Text.utf8Size text.toList + 1) ≤ wide.maxDepth →
        ∃ e', parseWithin wide text = .ok e' ∧ e'.SameAs (e.filled ⟨span, filling⟩) := by
  obtain ⟨c', hderives, hend⟩ := readsWithin_of_parseWithin_eq_ok h
  obtain ⟨m, hm, hmoves⟩ := hderives.transfers (some span)
  rcases hm.isAt.word_or with hnone | ⟨before, word, after, hstart, hstop, hold, hnew⟩
  · exact absurd hnone (not_forall_new_eq_old hderives hend hm hmoves hn hfixed)
  let x := Transfer.group span (readsWithin_of_parseWithin_eq_ok hinner)
  obtain ⟨e', hreads, hsame⟩ := (hmoves x rfl).reads (fun _ _ => rfl) hend
  have hsource : source.toList = before ++ (word ++ (after ++ c'.rest)) := by
    have hrest := hm.passes.rest_eq
    rwa [hold, List.append_assoc, List.append_assoc] at hrest
  have htext : before ++ (("(" ++ inner ++ ")").toList ++ (after ++ c'.rest)) =
      m.new x.text ++ c'.rest := by
    rw [hnew]
    simp [x, Transfer.group]
  have hreplaced := Span.replaced?_eq ("(" ++ inner ++ ")") hsource
    ((Nat.zero_add _).symm.trans hstart) hstop
  rw [htext] at hreplaced
  refine ⟨_, hreplaced, fun wide hlength hdepth =>
    ⟨e', parseWithin_eq_ok_of_reads ⟨_, hreads⟩ hlength hdepth, ?_⟩⟩
  rw [SameAs, ← relocated_const, ← relocated_const]
  exact Eq.symm hsame

/-- The object of `x.y` replaced by a chain, which stays an object of its own in `(a?.b).y`. -/
theorem parseWithin_filled_object :
    let e := member ⟨0, 3⟩ (identifier ⟨0, 1⟩ "x") (identifier ⟨2, 3⟩ "y") false false
    let filling := chain ⟨0, 4⟩
      (member ⟨0, 4⟩ (identifier ⟨0, 1⟩ "a") (identifier ⟨3, 4⟩ "b") false true)
    parseWithin .standard "x.y" = .ok e ∧ identifier ⟨0, 1⟩ "x" ∈ e.nodes ∧
      (∀ n ∈ e.nodes, identifier ⟨0, 1⟩ "x" ∉ n.fixed) ∧
      parseWithin .standard "a?.b" = .ok filling ∧
      ∃ text, (Span.mk 0 1).replaced? "x.y" ("(" ++ "a?.b" ++ ")") = some text ∧
        ∀ wide : Limits, wide.exceeded? text = none →
          4 * (Text.utf8Size text.toList + 1) ≤ wide.maxDepth →
          ∃ e', parseWithin wide text = .ok e' ∧ e'.SameAs (e.filled ⟨⟨0, 1⟩, filling⟩) := by
  intro e filling
  have hparse : parseWithin .standard "x.y" = .ok e := rfl
  have hinner : parseWithin .standard "a?.b" = .ok filling := rfl
  have hnodes : e.nodes = [e, identifier ⟨0, 1⟩ "x", identifier ⟨2, 3⟩ "y"] := rfl
  have hn : identifier ⟨0, 1⟩ "x" ∈ e.nodes := by
    rw [hnodes]
    exact List.mem_cons_of_mem _ (List.mem_cons_self ..)
  have hfixed : ∀ n ∈ e.nodes, identifier ⟨0, 1⟩ "x" ∉ n.fixed := by
    rw [hnodes]
    intro n hn
    simp only [List.mem_cons, List.not_mem_nil, or_false] at hn
    rcases hn with rfl | rfl | rfl
    · intro hname
      cases List.mem_singleton.1 hname
    · exact List.not_mem_nil
    · exact List.not_mem_nil
  exact ⟨hparse, hn, hfixed, hinner, parseWithin_filled hparse hn hfixed hinner⟩

end Expr

end Estree
