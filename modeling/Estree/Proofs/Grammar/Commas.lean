import Mathlib.Data.List.ReduceOption
import Estree.Proofs.Grammar.Constructs

/-!
# Lists with commas

The elements of an array, arguments, and the expressions of a sequence are read by three loops that
see the same: between every two commas an expression, or none (`ReadsSlots`). They differ in what
they make of a slot without an expression. An array has a hole there, but for the last slot;
arguments may have such a slot at the end and nowhere else; and among the several expressions of a
sequence there is none. Each loop follows the slots one by one, so each of them has an induction on
them for what it reads, and one for the fault that it ends in.

> `ReadsSlots.elements`, `ReadsSlots.argumentList`, `ReadsSlots.expressions`: slots that a loop
> takes are read by it.
> `argumentList_fault`, `expressions_fault`: slots that a loop does not take end in a fault at the
> first one that is blank, at the comma behind it or right where the expression was expected.

What a loop has read so far does not matter for its fault, so the induction on slots needs no
invariant: either the first slot is blank, or the others end in the fault (`…_laterFault`). A fault
in a list is then carried outwards through the productions that have it as a part, up to the whole
text (`entire_call_fault`, `entire_group_fault`).
-/

namespace Estree

open Scan

namespace Grammar

/-- Between commas there are these expressions, or none in their place; no comma follows. -/
inductive ReadsSlots (depth : Nat) : Cursor → List (Option Expr) → Cursor → Prop
  | last {c c' : Cursor} {e? : Option Expr} :
    Derives depth .expression c e? c' → c'.pastBlanks.rest.head? ≠ some ',' →
    ReadsSlots depth c [e?] c'.pastBlanks
  | more {c c₁ c' : Cursor} {e? : Option Expr} {others : List (Option Expr)} :
    Derives depth .expression c e? c₁ → c₁.pastBlanks.rest.head? = some ',' →
    ReadsSlots depth (c₁.pastBlanks.skip 1) others c' →
    ReadsSlots depth c (e? :: others) c'

/-- The slots of an array without the last one, if this one is blank. -/
def withoutLastHole (slots : List (Option Expr)) : List (Option Expr) :=
  if slots.getLast?.any Option.isNone then slots.dropLast else slots

variable {depth : Nat} {c c₁ c' : Cursor} {e? : Option Expr} {slots : List (Option Expr)}

/-- The only slot of an array counts if it is not blank. -/
theorem withoutLastHole_singleton (e? : Option Expr) :
    withoutLastHole [e?] = e?.toList.map some := by
  cases e? <;> rfl

/-- A slot that is not the last one counts in any case. -/
theorem withoutLastHole_cons (h : slots ≠ []) :
    withoutLastHole (e? :: slots) = e? :: withoutLastHole slots := by
  unfold withoutLastHole
  rw [List.getLast?_cons_of_ne_nil h, List.dropLast_cons_of_ne_nil h]
  split <;> rfl

namespace ReadsSlots

/-- There is at least one slot. -/
theorem ne_nil (h : ReadsSlots depth c slots c') : slots ≠ [] := by
  cases h <;> exact List.cons_ne_nil _ _

/-! ## What is read -/

/-- An array has the slots as elements, but for a blank one at the end. -/
theorem elements (h : ReadsSlots depth c slots c') :
    Derives depth .elements c (withoutLastHole slots) c' := by
  induction h with
  | last he hcomma =>
    rw [withoutLastHole_singleton]
    exact .lastElement he hcomma
  | more he hcomma hothers ih =>
    rw [withoutLastHole_cons hothers.ne_nil]
    exact .moreElements he hcomma ih

/-- Arguments may have a blank slot at the end only. -/
theorem argumentList (h : ReadsSlots depth c slots c') (hslots : none ∉ slots.dropLast) :
    Derives depth .argumentList c slots.reduceOption c' := by
  -- Only the last slot is left out, and it is reached without a comma behind it.
  induction h with
  | @last _ _ e? he hcomma =>
    cases e? <;> exact .lastArgument he hcomma
  | @more _ _ _ e? _ he hcomma hothers ih =>
    rw [List.dropLast_cons_of_ne_nil hothers.ne_nil, List.mem_cons, not_or] at hslots
    obtain ⟨hfirst, hslots⟩ := hslots
    obtain ⟨e, rfl⟩ := Option.ne_none_iff_exists'.1 (Ne.symm hfirst)
    exact .moreArguments he hcomma (ih hslots)

/-- A sequence of several expressions has no blank slot. -/
theorem expressions (h : ReadsSlots depth c slots c') (hslots : none ∉ slots) (isFirst : Bool) :
    Derives depth (.expressions isFirst) c slots.reduceOption c' := by
  induction h generalizing isFirst with
  | @last _ _ e? he hcomma =>
    obtain ⟨e, rfl⟩ := Option.ne_none_iff_exists'.1 (Ne.symm (List.ne_of_not_mem_cons hslots))
    exact .lastExpression he nofun hcomma
  | @more _ _ _ e? _ he hcomma _ ih =>
    rw [List.mem_cons, not_or] at hslots
    obtain ⟨hfirst, hslots⟩ := hslots
    obtain ⟨e, rfl⟩ := Option.ne_none_iff_exists'.1 (Ne.symm hfirst)
    exact .moreExpressions he hcomma (ih hslots false)

/-- Without a blank slot there is a node around the expressions. -/
theorem exists_node (h : ReadsSlots depth c slots c') (hslots : none ∉ slots)
    (grouped? : Option Span) : ∃ e, sequenceNode? grouped? slots.reduceOption = some e :=
  Option.ne_none_iff_exists'.1
    (sequenceNode?_ne_none (h.expressions hslots false).expressions_ne_nil)

/-- A sequence may begin with nothing at all. -/
theorem noExpressions (h : ReadsSlots depth c [none] c') :
    Derives depth (.expressions true) c [] c' := by
  cases h with
  | last he hcomma => exact .lastExpression he (fun _ => rfl) hcomma
  | more _ _ hothers => exact absurd rfl hothers.ne_nil

end ReadsSlots

/-! ## Faults -/

section Rules

variable {g : Grammar} {fault : Fault} {e : Expr} {isFirst : Bool}

/-- A comma behind a blank slot is a fault among arguments. -/
theorem argumentList_blank (h : g depth .expression c = .ok none c₁)
    (hcomma : c₁.pastBlanks.rest.head? = some ',') : g.argumentList depth c =
      .error ⟨.expected .elementBeforeComma, c₁.pastBlanks.position⟩ (c₁.pastBlanks.skip 1) := by
  rw [argumentList, bind_run h, skipBlanks_bind, position_bind, takes_char_bind, if_pos hcomma]
  rfl

/-- A fault further on among arguments. -/
theorem argumentList_laterFault (h : g depth .expression c = .ok (some e) c₁)
    (hcomma : c₁.pastBlanks.rest.head? = some ',')
    (hothers : g depth .argumentList (c₁.pastBlanks.skip 1) = .error fault c') :
    g.argumentList depth c = .error fault c' := by
  rw [argumentList, bind_run h, skipBlanks_bind, position_bind, takes_char_bind, if_pos hcomma]
  exact bind_error hothers

/-- A comma behind a blank slot at the start of a sequence is a fault. -/
theorem expressions_firstBlank (h : g depth .expression c = .ok none c₁)
    (hcomma : c₁.pastBlanks.rest.head? = some ',') : g.expressions depth true c =
      .error ⟨.expected .expressionBeforeComma, c₁.pastBlanks.position⟩ (c₁.pastBlanks.skip 1) := by
  rw [expressions, bind_run h]
  -- No comma is before the first slot, so that it is blank is no fault yet.
  show (do skipBlanks; _ : Scan (List Expr)) c₁ = _
  rw [skipBlanks_bind, position_bind, takes_char_bind, if_pos hcomma]
  rfl

/-- A blank slot further on in a sequence is a fault. -/
theorem expressions_laterBlank (h : g depth .expression c = .ok none c₁) :
    g.expressions depth false c = .error ⟨.expected .expressionAfterComma, c₁.position⟩ c₁ := by
  rw [expressions, bind_run h]
  rfl

/-- A fault further on in a sequence. -/
theorem expressions_laterFault (h : g depth .expression c = .ok (some e) c₁)
    (hcomma : c₁.pastBlanks.rest.head? = some ',')
    (hothers : g depth (.expressions false) (c₁.pastBlanks.skip 1) = .error fault c') :
    g.expressions depth isFirst c = .error fault c' := by
  rw [expressions, bind_run h]
  show (do skipBlanks; _ : Scan (List Expr)) c₁ = _
  rw [skipBlanks_bind, position_bind, takes_char_bind, if_pos hcomma]
  exact bind_error hothers

/-- A fault in a group is one of the sequence. -/
theorem grouped_fault (hopen : c.pastBlanks.rest.head? = some '(')
    (h : g depth (.expressions true) (c.pastBlanks.skip 1) = .error fault c') :
    g.sequence depth true c = .error fault c' := by
  rw [sequence, skipBlanks_bind, position_bind]
  dsimp only
  rw [if_pos rfl, bind_run (expect_char_run hopen)]
  exact bind_error h

/-- A pair of parentheses without an expression is a fault. -/
theorem grouped_blank (hopen : c.pastBlanks.rest.head? = some '(')
    (h : g depth (.expressions true) (c.pastBlanks.skip 1) = .ok [] c')
    (hclose : c'.rest.head? = some ')') : g.sequence depth true c =
      .error ⟨.expected .expressionWithinParen, c.pastBlanks.position⟩ (c'.skip 1) := by
  rw [sequence, skipBlanks_bind, position_bind]
  dsimp only
  rw [if_pos rfl, bind_run (expect_char_run hopen), bind_run h, if_pos rfl,
    bind_run (expect_char_run hclose)]
  rfl

/-- A fault in the list is one of the arguments. -/
theorem arguments_fault (h : g depth .argumentList c = .error fault c') :
    g.arguments depth c = .error fault c' := by
  rw [arguments, bind_error h]

/-- A fault in the arguments is one of the call. -/
theorem call_fault {before : Links} {optional : Bool}
    (h : g depth .arguments c = .error fault c') :
    g.call depth before optional c = .error fault c' := by
  rw [call, bind_error h]

/-- A fault in the call is one of the links. -/
theorem links_callFault {before : Links} (haccess : Token.access? c.pastBlanks.rest = none)
    (hparen : c.pastBlanks.rest.head? = some '(')
    (h : g depth (.call before false) (c.pastBlanks.skip 1) = .error fault c') :
    g.links depth before c = .error fault c' := by
  rw [links, here_bind, skipBlanks_bind, Token.takeAccess?_bind, haccess]
  dsimp only [Option.elim]
  rw [takes_char_bind, if_pos hparen]
  exact bind_error h

/-- A fault in the links is one of the token. -/
theorem token_linksFault {primary : Expr}
    (hprimary : g depth .primary c.pastBlanks = .ok (some primary) c₁)
    (h : g depth (.links ⟨primary, false⟩) c₁ = .error fault c') :
    g.token depth c = .error fault c' := by
  rw [token, skipBlanks_bind, bind_run hprimary]
  exact bind_error h

end Rules

/-- What is expected where a sequence has a blank slot: the first one is noticed at the comma behind
it, and the others are noticed at once. -/
def expectedInSequence : List (Option Expr) → Expected
  | none :: _ => .expressionBeforeComma
  | _ => .expressionAfterComma

namespace ReadsSlots

/-- A blank slot before a comma is no argument. -/
theorem argumentList_fault (h : ReadsSlots depth c slots c') (hslots : none ∈ slots.dropLast) :
    ∃ offset d, entire depth .argumentList c =
      .error ⟨.expected .elementBeforeComma, offset⟩ d := by
  -- The first blank slot ends the reading; up to there, each argument is read.
  induction h with
  | last => cases hslots
  | @more _ _ _ e? _ he hcomma hothers ih =>
    have hread := he.entire_eq_ok (Or.inl le_rfl)
    cases e? with
    | none => exact ⟨_, _, (readsByRule_entire ..).trans (argumentList_blank hread hcomma)⟩
    | some e =>
      rw [List.dropLast_cons_of_ne_nil hothers.ne_nil] at hslots
      obtain ⟨offset, d, hfault⟩ := ih ((List.mem_cons.1 hslots).resolve_left nofun)
      exact ⟨offset, d, (readsByRule_entire ..).trans (argumentList_laterFault hread hcomma hfault)⟩

/-- Behind a comma a sequence goes on. -/
theorem laterExpressions_fault (h : ReadsSlots depth c slots c') (hslots : none ∈ slots) :
    ∃ offset d, entire depth (.expressions false) c =
      .error ⟨.expected .expressionAfterComma, offset⟩ d := by
  induction h with
  | last he =>
    obtain rfl := List.mem_singleton.1 hslots
    exact ⟨_, _, (readsByRule_entire ..).trans
      (expressions_laterBlank (he.entire_eq_ok (Or.inl le_rfl)))⟩
  | @more _ _ _ e? _ he hcomma _ ih =>
    have hread := he.entire_eq_ok (Or.inl le_rfl)
    cases e? with
    | none => exact ⟨_, _, (readsByRule_entire ..).trans (expressions_laterBlank hread)⟩
    | some e =>
      obtain ⟨offset, d, hfault⟩ := ih ((List.mem_cons.1 hslots).resolve_left nofun)
      exact ⟨offset, d, (readsByRule_entire ..).trans (expressions_laterFault hread hcomma hfault)⟩

/-- Where there are several, each slot of a sequence has an expression. -/
theorem expressions_fault (h : ReadsSlots depth c slots c') (hslots : none ∈ slots)
    (hlength : 2 ≤ slots.length) :
    ∃ offset d, entire depth (.expressions true) c =
      .error ⟨.expected (expectedInSequence slots), offset⟩ d := by
  cases h with
  | last => exact absurd hlength (by simp)
  | @more _ _ _ e? _ he hcomma hothers =>
    have hread := he.entire_eq_ok (Or.inl le_rfl)
    cases e? with
    | none => exact ⟨_, _, (readsByRule_entire ..).trans (expressions_firstBlank hread hcomma)⟩
    | some e =>
      obtain ⟨offset, d, hfault⟩ :=
        hothers.laterExpressions_fault ((List.mem_cons.1 hslots).resolve_left nofun)
      exact ⟨offset, d, (readsByRule_entire ..).trans (expressions_laterFault hread hcomma hfault)⟩

end ReadsSlots

section Entire

variable {fault : Fault}

/-- A fault in the arguments of a callee is the outcome of the sequence that begins with it. -/
theorem entire_call_fault {callee : Expr} (hpast : c.pastBlanks = c)
    (hop : Token.unaryOperator? c.rest = none) (hcallee : Derives depth .primary c (some callee) c₁)
    (haccess : Token.access? c₁.pastBlanks.rest = none)
    (hparen : c₁.pastBlanks.rest.head? = some '(')
    (h : entire depth .argumentList (c₁.pastBlanks.skip 1) = .error fault c') :
    entire (depth + 3) (.sequence false) c = .error fault c' := by
  have harguments : entire depth .arguments _ = _ :=
    (readsByRule_entire ..).trans (arguments_fault h)
  have hcall : entire depth (.call ⟨callee, false⟩ false) _ = _ :=
    (readsByRule_entire ..).trans (call_fault harguments)
  have hlinks : entire depth (.links ⟨callee, false⟩) c₁ = _ :=
    (readsByRule_entire ..).trans (links_callFault haccess hparen hcall)
  have hprimary := hcallee.entire_eq_ok (Or.inl le_rfl)
  rw [← hpast] at hprimary
  exact entire_sequence_tokenFault hpast hop
    ((readsByRule_entire ..).trans (token_linksFault hprimary hlinks))

/-- A fault in a group is the outcome of the sequence that begins with it. -/
theorem entire_group_fault (hopen : c.rest.head? = some '(')
    (h : entire.sequence depth true c = .error fault c') :
    entire (depth + 4) (.sequence false) c = .error fault c' := by
  have hgroup : entire depth .primaryForm c = _ := (readsByRule_entire ..).trans
    ((primaryForm_group hopen).trans ((readsByRule_entire depth (.sequence true) c).trans h))
  have hprimary : entire (depth + 1) .primary c = _ := (readsByRule_entire ..).trans hgroup
  obtain ⟨xs, hxs⟩ := List.head?_eq_some_iff.1 hopen
  refine entire_sequence_fault (Cursor.pastBlanks_of_cons hxs (by decide)) ?_ hprimary
  rw [hxs]
  rfl

end Entire

end Grammar

namespace Scan

/-- A text in which no expression begins. -/
theorem programBy_blank {g : Grammar} {maxDepth : Nat} {c c' : Cursor}
    (h : g maxDepth (.sequence false) c = .ok none c') (hend : c'.pastBlanks.rest = []) :
    programBy g maxDepth c =
      .error ⟨.expected .expression, c'.pastBlanks.position⟩ c'.pastBlanks := by
  rw [programBy, programOf, ahead_bind, bind_run h, skipBlanks_bind, ahead_bind, hend]
  rfl

end Scan

end Estree
