import Estree.Proofs.Grammar.Reader
import Estree.Proofs.Grammar.Spans
import Estree.Proofs.Transfer.Groups

/-!
# Sequences without parentheses

A sequence begins where its first expression does, unless parentheses enclose it: then it begins
before. So the tree of a text tells whether commas have been read at its top
(`eq_singleton_of_sequenceNode?`), as no single expression yields such a tree (`Derives.notBare`).

This matters where a text is put between commas, or in parentheses. Between commas an expression
that is no bare sequence is read as one expression, and a bare sequence as several. In parentheses a
bare sequence comes to reach over them (`enclosed`), and any other tree stays as it is
(`sequenceNode?_enclosed`).
-/

open Estree.Expr

namespace Estree

namespace Expr

/-- Whether the tree is a sequence that no parentheses enclose. -/
def isBareSequence : Expr → Bool
  | sequence span (first :: _) => span.start == first.span.start
  | _ => false

/-- A sequence with another span; other trees stay as they are. -/
def withSequenceSpan (span : Span) : Expr → Expr
  | sequence _ es => .sequence span es
  | e => e

/-- What a tree becomes if parentheses at a span are put around its text. A sequence that had none
reaches over them, and no other tree shows them. -/
def enclosed (span : Span) (e : Expr) : Expr :=
  if e.isBareSequence then e.withSequenceSpan span else e

end Expr

namespace Grammar

variable {depth : Nat} {p : Production} {c c' : Cursor} {v : p.Yield} {text : List Char}

/-- A single expression is no bare sequence, and a run or an operand that has grown is none if it
was none before. -/
def NotBare : (p : Production) → p.Yield → Prop
  | .sequence true, e? | .expression, e? | .conditional, e? | .unary, e? | .unaryForm, e?
  | .token, e? | .primary, e? | .primaryForm, e? => ∀ e ∈ e?, e.isBareSequence = false
  | .expressions _, es => ∀ e ∈ es, e.isBareSequence = false
  | .operands _, climbed? | .climb _, climbed? => ∀ x ∈ climbed?, x.expr.isBareSequence = false
  | .infixes _ left _, climbed =>
    left.expr.isBareSequence = false → climbed.expr.isBareSequence = false
  | .links before, after | .member before _, after | .accesses before _, after
  | .call before _, after => before.node.isBareSequence = false → after.node.isBareSequence = false
  | .construct _, e | .updated .., e | .array _, e => e.isBareSequence = false
  | _, _ => True

/-- A chain is no sequence. -/
theorem isBareSequence_finish {run : Links} (h : run.node.isBareSequence = false) :
    run.finish.isBareSequence = false := by
  unfold Links.finish
  split
  next => rfl
  next => exact h

/-- Joined operands are no sequence. -/
theorem isBareSequence_join (operator : InfixOperator) (left right : Expr) :
    (operator.join left right).isBareSequence = false := by
  cases operator <;> rfl

/-- A sequence in parentheses begins before its first expression. -/
theorem isBareSequence_grouped {es : List Expr} {span : Span} {lo hi : Nat}
    (hes : AreAt text lo hi es) (hlt : span.start < lo)
    (hnone : ∀ e ∈ es, e.isBareSequence = false) :
    ∀ e ∈ sequenceNode? (some span) es, e.isBareSequence = false := by
  intro e he
  rcases es with _ | ⟨first, _ | ⟨second, rest⟩⟩
  · cases he
  · obtain rfl := Option.some.inj he
    exact hnone first (List.mem_singleton_self first)
  · obtain rfl := Option.some.inj he
    obtain ⟨hstart, -⟩ := areAt_cons_iff.1 hes
    have hne : span.start ≠ first.span.start := by omega
    exact beq_false_of_ne hne

/-- No production but an ungrouped sequence yields a bare sequence. -/
theorem Derives.notBare (h : Derives depth p c v c') (hc : c.IsIn text) : NotBare p v := by
  induction h with
  | @grouped _ c c' es hopen hes _ _ ih =>
    have hc₁ := hc.pastBlanks.skip 1
    -- The span of a sequence in parentheses begins before its first expression, so it is not bare.
    have hlocated : AreAt text (c.pastBlanks.skip 1).position c'.position es := hes.located hc₁
    exact isBareSequence_grouped hlocated (Cursor.position_lt_skip_char hopen) (ih hc₁)
  | @lastExpression _ _ _ e? _ _ _ _ ih =>
    intro e he
    exact ih hc e (Option.mem_toList.1 he)
  | @moreExpressions _ c c₁ c' e es _ he _ _ ihe ihes =>
    refine List.forall_mem_cons.2 ⟨ihe hc e rfl, ?_⟩
    exact ihes ((he.isIn hc).pastBlanks.skip 1)
  | expression _ ih => exact ih hc
  | @unconditional _ _ _ operands? _ _ ih =>
    intro e he
    obtain ⟨climbed, hclimbed, rfl⟩ := Option.map_eq_some_iff.1 he
    exact ih hc climbed hclimbed
  | conditional => exact fun e he => Option.some.inj he ▸ rfl
  | operands _ ih => exact ih hc
  | noOperand => exact nofun
  | climb hleft _ ihleft ih =>
    intro x hx
    obtain rfl := Option.some.inj hx
    exact ih (hleft.isIn hc.pastBlanks) (ihleft hc.pastBlanks _ rfl)
  | noInfix => exact id
  | joined _ _ _ hright _ _ _ ih =>
    exact fun _ => ih (hright.isIn (hc.pastBlanks.skip _)) (isBareSequence_join _ _ _)
  | unary _ ih => exact ih hc
  | unaryOperator => exact fun e he => Option.some.inj he ▸ rfl
  | noUnaryOperator _ _ ih => exact ih hc.pastBlanks
  | noToken => exact nofun
  | token hprimary _ _ ihprimary ihrun =>
    intro e he
    obtain rfl := Option.some.inj he
    exact isBareSequence_finish
      (ihrun (hprimary.isIn hc.pastBlanks) (ihprimary hc.pastBlanks _ rfl))
  | trailingUpdate => exact fun e he => Option.some.inj he ▸ rfl
  | noLink => exact id
  | @linkAccess _ _ _ _ _ _ _ access _ hbetween _ ihbetween ih =>
    have hc₁ := hc.pastBlanks.skip access.text.length
    exact fun hbefore => ih (hbetween.isIn hc₁) (ihbetween hc₁ hbefore)
  | linkCall _ _ hbetween _ ihbetween ih =>
    have hc₁ := hc.pastBlanks.skip 1
    exact fun hbefore => ih (hbetween.isIn hc₁) (ihbetween hc₁ hbefore)
  | member _ ih => exact ih hc
  | computedLast => exact fun _ => rfl
  | computedNext _ hproperty _ _ _ _ ih =>
    exact fun _ => ih (((hproperty.isIn hc).pastBlanks.skip 1).pastBlanks.skip _) rfl
  | namedLast => exact fun _ => rfl
  | namedNext _ _ hname _ _ ih =>
    have hc₁ := hc.pastBlanks.of_reaches (Leaf.reaches_propertyName hname)
    exact fun _ => ih (hc₁.pastBlanks.skip _) rfl
  | accessedCall _ _ _ ih => exact ih (hc.pastBlanks.skip 1)
  | callLast => exact fun _ => rfl
  | callNext hes _ _ _ ih => exact fun _ => ih ((hes.isIn hc).pastBlanks.skip _) rfl
  | primary _ ih => exact ih hc
  | group _ _ ih => exact ih hc
  | leadingUpdate _ _ ih => exact fun e he => Option.some.inj he ▸ ih (hc.skip _)
  | new _ _ ih => exact fun e he => Option.some.inj he ▸ ih (hc.skip _)
  | word =>
    intro e he
    obtain rfl := Option.some.inj he
    unfold Leaf.ofWord
    split <;> rfl
  | number hstart hnumber =>
    intro e he
    obtain rfl := Option.some.inj he
    obtain ⟨_, _, -, -, -, rfl⟩ := Leaf.number_eq_ok hstart hnumber
    rfl
  | arrayLiteral _ _ ih => exact fun e he => Option.some.inj he ▸ ih (hc.skip 1)
  | noPrimary => exact nofun
  | construct | updated | array => rfl
  | _ => trivial

/-- A sequence that begins where its first expression does is bare. -/
theorem isBareSequence_sequence (first : Expr) (rest : List Expr) (stop : Nat) :
    (Expr.sequence ⟨first.span.start, stop⟩ (first :: rest)).isBareSequence = true :=
  beq_self_eq_true first.span.start

/-- The tree of the expressions of a text shows whether there is more than one. -/
theorem sequenceNode?_enclosed {es : List Expr} {e : Expr} (span : Span)
    (hnone : ∀ x ∈ es, x.isBareSequence = false) (hnode : sequenceNode? none es = some e) :
    sequenceNode? (some span) es = some (e.enclosed span) := by
  rcases es with _ | ⟨first, _ | ⟨second, rest⟩⟩
  · cases hnode
  · obtain rfl := Option.some.inj hnode
    rw [enclosed, hnone first (List.mem_singleton_self first)]
    rfl
  · obtain rfl := Option.some.inj hnode
    have hbare := isBareSequence_sequence first (second :: rest)
      ((second :: rest).getLastD first).span.stop
    exact congrArg some (if_pos hbare).symm

/-- What is no bare sequence has been read as one expression. -/
theorem eq_singleton_of_sequenceNode? {es : List Expr} {e : Expr}
    (hnode : sequenceNode? none es = some e) (hbare : e.isBareSequence = false) : es = [e] := by
  rcases es with _ | ⟨first, _ | ⟨second, rest⟩⟩
  · cases hnode
  · exact congrArg (fun x => [x]) (Option.some.inj hnode)
  · obtain rfl := Option.some.inj hnode
    cases (isBareSequence_sequence first (second :: rest) _).symm.trans hbare

end Grammar

end Estree
