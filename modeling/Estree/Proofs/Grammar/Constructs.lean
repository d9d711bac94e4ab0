import Estree.Proofs.Grammar.Climbing

/-!
# Faults after `new`

A callee with an optional access is refused once it has been read (`construct_chain`), and a fault
in a primary expression is the outcome of all that begins with it (`entire_sequence_fault`).

The lemmas carry a fault outwards, from the callee of a `new` to the text that begins with the word:
each production hands on the fault of its first part before it looks at anything else. With several
`new` one in the other, the fault of the innermost one is therefore the outcome of all of them.
-/

namespace Estree

open Scan

namespace Grammar

section Rules

variable {g : Grammar} {depth start : Nat} {c c₁ c' : Cursor} {fault : Fault}

/-- A callee with an optional link is refused at the start of the `new`. -/
theorem construct_chain {primary : Expr} {callee : Callee}
    (hprimary : g depth .primary c.pastBlanks = .ok (some primary) c₁)
    (hcallee : g depth (.calleeLinks ⟨primary, false⟩) c₁ = .ok callee c')
    (hoptional : callee.links.hasOptional = true) :
    g.construct depth start c = .error ⟨.chainInNew, start⟩ c' := by
  rw [construct, skipBlanks_bind, bind_run hprimary]
  show (g depth (.calleeLinks ⟨primary, false⟩) >>= _) c₁ = _
  rw [bind_run hcallee]
  dsimp only
  rw [hoptional, Bool.true_or, if_pos rfl]
  rfl

/-- A fault in the first part of a callee is one of the `new`. -/
theorem construct_fault (h : g depth .primary c.pastBlanks = .error fault c') :
    g.construct depth start c = .error fault c' := by
  rw [construct, skipBlanks_bind, bind_error h]

/-- A fault of a `new` is one of the primary expression. -/
theorem new_fault (hword : Text.leadingWord c.rest = "new".toList)
    (h : g depth (.construct c.position) (c.skip "new".toList.length) = .error fault c') :
    g.primaryForm depth c = .error fault c' := by
  have hne : "new".toList ≠ [] := by decide
  have hparen := not_sees_paren_of_leadingWord (hword ▸ hne)
  have hupdate := Token.updateOperator?_of_leadingWord (hword ▸ hne)
  rw [primaryForm, position_bind, sees_bind, if_neg hparen, Token.takeUpdate?_bind, hupdate]
  dsimp only [Option.elim]
  rw [takeWord?_bind, word?_eq_some hword hne, hword]
  dsimp only
  rw [if_pos rfl]
  exact bind_error h

/-- A fault in a primary expression is one of the token. -/
theorem token_fault (h : g depth .primary c.pastBlanks = .error fault c') :
    g.token depth c = .error fault c' := by
  rw [token, skipBlanks_bind, bind_error h]

/-- A fault in a token is one of the operand. -/
theorem unaryForm_fault (hop : Token.unaryOperator? c.pastBlanks.rest = none)
    (h : g depth .token c.pastBlanks = .error fault c') :
    g.unaryForm depth c = .error fault c' := by
  rw [unaryForm, skipBlanks_bind, ahead_bind, hop]
  exact h

/-- A fault in the first operand is one of the operands. -/
theorem climb_operandFault {least : Nat} (h : g depth .unary c.pastBlanks = .error fault c') :
    g.climb depth least c = .error fault c' := by
  rw [climb, skipBlanks_bind, ahead_bind, bind_error h]

end Rules

section Entire

variable {depth : Nat} {c c' : Cursor} {fault : Fault}

/-- A fault in a construct is the outcome of the primary expression that begins with its `new`. -/
theorem entire_new_fault (hword : Text.leadingWord c.rest = "new".toList)
    (h : entire.construct depth c.position (c.skip "new".toList.length) = .error fault c') :
    entire (depth + 1) .primary c = .error fault c' := by
  have hconstruct := (readsByRule_entire depth (.construct c.position) _).trans h
  have hform : entire depth .primaryForm c = _ :=
    (readsByRule_entire ..).trans (new_fault hword hconstruct)
  exact (readsByRule_entire (depth + 1) .primary c).trans hform

/-- A fault in a token is the outcome of the sequence that begins with it. -/
theorem entire_sequence_tokenFault (hpast : c.pastBlanks = c)
    (hop : Token.unaryOperator? c.rest = none) (h : entire depth .token c = .error fault c') :
    entire (depth + 3) (.sequence false) c = .error fault c' := by
  have hform : entire depth .unaryForm c = .error fault c' :=
    (readsByRule_entire ..).trans (unaryForm_fault (by rwa [hpast]) (by rwa [hpast]))
  have hunary : entire (depth + 1) .unary c = .error fault c' :=
    (readsByRule_entire ..).trans hform
  have hclimb : entire (depth + 1) (.climb 1) c = .error fault c' :=
    (readsByRule_entire ..).trans (climb_operandFault (by rwa [hpast]))
  rw [← entire_operands, ← hpast] at hclimb
  exact entire_sequence_eq_error hclimb

/-- So is one in a primary expression. -/
theorem entire_sequence_fault (hpast : c.pastBlanks = c)
    (hop : Token.unaryOperator? c.rest = none) (h : entire depth .primary c = .error fault c') :
    entire (depth + 3) (.sequence false) c = .error fault c' := by
  have htoken : entire depth .token c = .error fault c' :=
    (readsByRule_entire ..).trans (token_fault (by rwa [hpast]))
  exact entire_sequence_tokenFault hpast hop htoken

end Entire

end Grammar

end Estree
