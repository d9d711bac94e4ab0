import Estree.Proofs.Grammar.Derivation

/-!
# Whatever is read can be derived

`unfold_isSound`: a value that the unfolded grammar yields, with whatever fuel and levels, has a
derivation. There is one lemma for each production, about a grammar of which nothing is known but
that what it reads can be derived; the induction on the fuel then only puts them together.

A production is opened once and taken apart from its outcome: by the lemmas on scans, a value at the
end of a bind comes from values of its parts, and branches that raise a fault do not end with one.
What is left for each way through the production is the constructor of `Derives` for it. Where a
production asks what stands at the cursor, the constructor has the answer as a hypothesis, so a
derivation knows why it has gone this way and no other.
-/

namespace Estree

namespace Grammar

open Scan

/-- Whether what a grammar reads can be derived. -/
def IsSound (g : Grammar) : Prop :=
  ∀ ⦃depth : Nat⦄ ⦃p : Production⦄ ⦃c c' : Cursor⦄ ⦃v : p.Yield⦄,
    g depth p c = .ok v c' → Derives depth p c v c'

variable {g : Grammar} {depth : Nat} {c c' : Cursor}

/-- A production that has gone one level down has been read with one level less. -/
theorem nested_sound (hg : g.IsSound) {p : Production} {v : p.Yield}
    (h : g.nested depth p c = .ok v c') : ∃ below, depth = below + 1 ∧ Derives below p c v c' := by
  cases depth with
  | zero => cases h
  | succ below => exact ⟨below, rfl, hg h⟩

/-- Expressions, in parentheses or not. -/
theorem sequence_sound (hg : g.IsSound) {isGrouped : Bool} {e? : Option Expr}
    (h : g.sequence depth isGrouped c = .ok e? c') :
    Derives depth (.sequence isGrouped) c e? c' := by
  rw [sequence, skipBlanks_bind, position_bind] at h
  cases isGrouped with
  | false =>
    obtain ⟨es, c₁, hes, h⟩ := bind_eq_ok.1 h
    have hungrouped := Derives.ungrouped (hg hes)
    rcases es with _ | ⟨first, _ | ⟨second, rest⟩⟩
    · obtain ⟨rfl, rfl⟩ := pure_eq_ok.1 h
      exact hungrouped
    · obtain ⟨rfl, rfl⟩ := pure_eq_ok.1 h
      exact hungrouped
    · obtain ⟨rfl, rfl⟩ := pure_eq_ok.1 h
      exact hungrouped
  | true =>
    obtain ⟨hopen, h⟩ := expect_char_bind_eq_ok.1 h
    obtain ⟨es, c₁, hes, h⟩ := bind_eq_ok.1 h
    obtain ⟨hclose, h⟩ := expect_char_bind_eq_ok.1 h
    rcases es with _ | ⟨first, _ | ⟨second, rest⟩⟩
    · exact (failAt_bind_ne_ok.1 h).elim
    · obtain ⟨rfl, rfl⟩ := pure_eq_ok.1 h
      exact .grouped hopen (hg hes) hclose (List.cons_ne_nil _ _)
    · obtain ⟨rfl, rfl⟩ := pure_eq_ok.1 h
      exact .grouped hopen (hg hes) hclose (List.cons_ne_nil _ _)

/-- Expressions with commas between them. -/
theorem expressions_sound (hg : g.IsSound) {isFirst : Bool} {es : List Expr}
    (h : g.expressions depth isFirst c = .ok es c') :
    Derives depth (.expressions isFirst) c es c' := by
  rw [expressions, bind_eq_ok] at h
  obtain ⟨e?, c₁, he, h⟩ := h
  dsimp only at h
  rw [ite_run] at h
  split at h
  next => exact (fail_bind_ne_ok.1 h).elim
  next hfirst =>
    rw [skipBlanks_bind, position_bind, takes_char_bind] at h
    split at h
    next hcomma =>
      cases e? with
      | none => exact (failAt_ne_ok.1 h).elim
      | some e =>
        obtain ⟨rest, c₂, hrest, h⟩ := bind_eq_ok.1 h
        obtain ⟨rfl, rfl⟩ := pure_eq_ok.1 h
        exact .moreExpressions (hg he) hcomma (hg hrest)
    next hcomma =>
      obtain ⟨rfl, rfl⟩ := pure_eq_ok.1 h
      refine .lastExpression (hg he) ?_ hcomma
      rintro rfl
      simpa using hfirst

/-- Operands, with a question mark behind them or not. -/
theorem conditional_sound (hg : g.IsSound) {e? : Option Expr}
    (h : g.conditional depth c = .ok e? c') : Derives depth .conditional c e? c' := by
  obtain ⟨operands?, c₁, htest, h⟩ := bind_eq_ok.1 h
  rw [skipBlanks_bind, position_bind, takes_char_bind] at h
  split at h
  next hquestion =>
    cases operands? with
    | none => exact (failAt_ne_ok.1 h).elim
    | some test =>
      obtain ⟨consequent?, c₂, hconsequent, h⟩ := bind_eq_ok.1 h
      rw [require_bind_eq_ok] at h
      obtain ⟨consequent, rfl, h⟩ := h
      obtain ⟨hcolon, h⟩ := expect_char_bind_eq_ok.1 h
      obtain ⟨alternate?, c₃, halternate, h⟩ := bind_eq_ok.1 h
      rw [require_bind_eq_ok] at h
      obtain ⟨alternate, rfl, h⟩ := h
      obtain ⟨rfl, rfl⟩ := pure_eq_ok.1 h
      exact .conditional (hg htest) hquestion (hg hconsequent) hcolon (hg halternate)
  next hquestion =>
    obtain ⟨rfl, rfl⟩ := pure_eq_ok.1 h
    exact .unconditional (hg htest) hquestion

/-- The first operand, if there is one. -/
theorem climb_sound (hg : g.IsSound) {least : Nat} {climbed? : Option Climbed}
    (h : g.climb depth least c = .ok climbed? c') : Derives depth (.climb least) c climbed? c' := by
  rw [climb, skipBlanks_bind, ahead_bind] at h
  obtain ⟨left?, c₁, hleft, h⟩ := bind_eq_ok.1 h
  cases left? with
  | none =>
    obtain ⟨rfl, rfl⟩ := pure_eq_ok.1 h
    exact .noOperand (hg hleft)
  | some left =>
    obtain ⟨climbed, c₂, hclimbed, h⟩ := bind_eq_ok.1 h
    obtain ⟨rfl, rfl⟩ := pure_eq_ok.1 h
    exact .climb (hg hleft) (hg hclimbed)

/-- An operator is joined only if it binds tightly enough, and no check forbids it. -/
theorem infixes_sound (hg : g.IsSound) {least : Nat} {left climbed : Climbed} {isBareUnary : Bool}
    (h : g.infixes depth least left isBareUnary c = .ok climbed c') :
    Derives depth (.infixes least left isBareUnary) c climbed c' := by
  rw [infixes, skipBlanks_bind, ahead_bind] at h
  cases hop : Token.infixOperator? c.pastBlanks.rest with
  | none =>
    rw [hop] at h
    obtain ⟨rfl, rfl⟩ := pure_eq_ok.1 h
    exact .noInfix (by simp [hop])
  | some operator =>
    rw [hop] at h
    dsimp only at h
    rw [ite_run, ite_run] at h
    split at h
    next hless =>
      obtain ⟨rfl, rfl⟩ := pure_eq_ok.1 h
      exact .noInfix (by simpa [hop] using hless)
    next hless =>
      -- `-a ** b` is refused before the right operand is read, mixed `??` only afterwards.
      split at h
      next => exact (failAt_bind_ne_ok.1 h).elim
      next hbare =>
        rw [position_bind, skip_bind] at h
        obtain ⟨right?, c₁, hright, h⟩ := bind_eq_ok.1 h
        rw [require_bind_eq_ok] at h
        obtain ⟨right, rfl, h⟩ := h
        have hbare' : ¬(isBareUnary = true ∧ operator = .binary .exp) := by simpa using hbare
        have hleast : least ≤ operator.precedence := Nat.le_of_not_lt hless
        cases operator with
        | binary operator =>
          refine .joined hop hleast hbare' (hg hright) ?_ (hg h)
          intro logical hlogical
          cases hlogical
        | logical logical =>
          dsimp only at h
          rw [ite_run] at h
          split at h
          next => exact (failAt_bind_ne_ok.1 h).elim
          next hclash =>
            refine .joined hop hleast hbare' (hg hright) ?_ (hg h)
            intro logical' hlogical
            cases hlogical
            simpa using hclash

/-- Unary operators before their operand, or none. -/
theorem unaryForm_sound (hg : g.IsSound) {e? : Option Expr}
    (h : g.unaryForm depth c = .ok e? c') : Derives depth .unaryForm c e? c' := by
  rw [unaryForm, skipBlanks_bind, ahead_bind] at h
  cases hop : Token.unaryOperator? c.pastBlanks.rest with
  | none =>
    rw [hop] at h
    exact .noUnaryOperator hop (hg h)
  | some operator =>
    rw [hop] at h
    dsimp only at h
    rw [position_bind, skip_bind] at h
    obtain ⟨argument?, c₁, hargument, h⟩ := bind_eq_ok.1 h
    rw [require_bind_eq_ok] at h
    obtain ⟨argument, rfl, h⟩ := h
    obtain ⟨rfl, rfl⟩ := pure_eq_ok.1 h
    exact .unaryOperator hop (hg hargument)

/-- A run, with an update behind it or not. -/
theorem token_sound (hg : g.IsSound) {e? : Option Expr}
    (h : g.token depth c = .ok e? c') : Derives depth .token c e? c' := by
  rw [token, skipBlanks_bind] at h
  obtain ⟨primary?, c₁, hprimary, h⟩ := bind_eq_ok.1 h
  cases primary? with
  | none =>
    obtain ⟨rfl, rfl⟩ := pure_eq_ok.1 h
    exact .noToken (hg hprimary)
  | some primary =>
    obtain ⟨run, c₂, hrun, h⟩ := bind_eq_ok.1 h
    rw [skipInlineBlanks_bind, Token.takeUpdate?_bind] at h
    cases hop : Token.updateOperator? (c₂.skipBlanks false).rest with
    | none =>
      rw [hop] at h
      obtain ⟨rfl, rfl⟩ := pure_eq_ok.1 h
      exact .token (hg hprimary) (hg hrun) hop
    | some operator =>
      rw [hop] at h
      obtain ⟨e, c₃, hupdate, h⟩ := bind_eq_ok.1 h
      obtain ⟨rfl, rfl⟩ := pure_eq_ok.1 h
      rw [trailingUpdate, ite_run] at hupdate
      split at hupdate
      next => exact (failAt_bind_ne_ok.1 hupdate).elim
      next hplace =>
        obtain ⟨rfl, rfl⟩ := pure_eq_ok.1 hupdate
        exact .trailingUpdate (hg hprimary) (hg hrun) hop (by simpa using hplace)

/-- Links, one after the other. -/
theorem links_sound (hg : g.IsSound) {before after : Links}
    (h : g.links depth before c = .ok after c') : Derives depth (.links before) c after c' := by
  rw [links, here_bind, skipBlanks_bind, Token.takeAccess?_bind] at h
  cases haccess : Token.access? c.pastBlanks.rest with
  | some access =>
    rw [haccess] at h
    obtain ⟨between, c₁, hbetween, h⟩ := bind_eq_ok.1 h
    exact .linkAccess haccess (hg hbetween) (hg h)
  | none =>
    rw [haccess] at h
    dsimp only [Option.elim] at h
    rw [takes_char_bind] at h
    split at h
    next hparen =>
      obtain ⟨between, c₁, hbetween, h⟩ := bind_eq_ok.1 h
      exact .linkCall haccess hparen (hg hbetween) (hg h)
    next hparen =>
      obtain ⟨rfl, rfl⟩ := pure_eq_ok.1 h
      exact .noLink haccess hparen

/-- After one link either nothing follows that begins an access, or an access is taken. -/
theorem whenAccess_eq_ok {before after : Links} {follow : Access → Scan Links}
    (h : whenAccess before follow c = .ok after c') :
    (Token.access? c.pastBlanks.rest = none ∧ before = after ∧ c = c') ∨
      ∃ access, Token.access? c.pastBlanks.rest = some access ∧
        follow access (c.pastBlanks.skip access.text.length) = .ok after c' := by
  rw [whenAccess, here_bind, skipBlanks_bind, Token.takeAccess?_bind] at h
  cases haccess : Token.access? c.pastBlanks.rest with
  | some access =>
    rw [haccess] at h
    exact Or.inr ⟨access, rfl, h⟩
  | none =>
    rw [haccess] at h
    exact Or.inl ⟨rfl, pure_eq_ok.1 h⟩

/-- Accesses by expressions and by names, or a call that takes over. -/
theorem accesses_sound (hg : g.IsSound) {before after : Links} {access : Access}
    (h : g.accesses depth before access c = .ok after c') :
    Derives depth (.accesses before access) c after c' := by
  rw [accesses] at h
  dsimp only at h
  rw [ite_run] at h
  split at h
  next hcomputed =>
    obtain ⟨property?, c₁, hproperty, h⟩ := bind_eq_ok.1 h
    rw [require_bind_eq_ok] at h
    obtain ⟨property, rfl, h⟩ := h
    obtain ⟨hclose, h⟩ := expect_char_bind_eq_ok.1 h
    rcases whenAccess_eq_ok h with ⟨hnone, rfl, rfl⟩ | ⟨next, hnext, h⟩
    · exact .computedLast hcomputed (hg hproperty) hclose hnone
    · exact .computedNext hcomputed (hg hproperty) hclose hnext (hg h)
  next hcomputed =>
    rw [skipBlanks_bind, takes_char_bind] at h
    have hnamed : access.computed = false := Bool.eq_false_iff.2 hcomputed
    split at h
    next hparen => exact .accessedCall hnamed hparen (hg h)
    next hparen =>
      obtain ⟨property, c₁, hproperty, h⟩ := bind_eq_ok.1 h
      rcases whenAccess_eq_ok h with ⟨hnone, rfl, rfl⟩ | ⟨next, hnext, h⟩
      · exact .namedLast hnamed hparen hproperty hnone
      · exact .namedNext hnamed hparen hproperty hnext (hg h)

/-- Arguments, with an access behind them or not. -/
theorem call_sound (hg : g.IsSound) {before after : Links} {optional : Bool}
    (h : g.call depth before optional c = .ok after c') :
    Derives depth (.call before optional) c after c' := by
  obtain ⟨arguments, c₁, harguments, h⟩ := bind_eq_ok.1 h
  rw [position_bind] at h
  rcases whenAccess_eq_ok h with ⟨hnone, rfl, rfl⟩ | ⟨next, hnext, h⟩
  · exact .callLast (hg harguments) hnone
  · exact .callNext (hg harguments) hnext (hg h)

/-- Arguments to the parenthesis that closes. -/
theorem arguments_sound (hg : g.IsSound) {arguments : List Expr}
    (h : g.arguments depth c = .ok arguments c') : Derives depth .arguments c arguments c' := by
  obtain ⟨arguments, c₁, harguments, h⟩ := bind_eq_ok.1 h
  obtain ⟨hclose, h⟩ := expect_char_bind_eq_ok.1 h
  obtain ⟨rfl, rfl⟩ := pure_eq_ok.1 h
  exact .arguments (hg harguments) hclose

/-- Arguments with commas between them. -/
theorem argumentList_sound (hg : g.IsSound) {arguments : List Expr}
    (h : g.argumentList depth c = .ok arguments c') :
    Derives depth .argumentList c arguments c' := by
  obtain ⟨e?, c₁, he, h⟩ := bind_eq_ok.1 h
  rw [skipBlanks_bind, position_bind, takes_char_bind] at h
  split at h
  next hcomma =>
    cases e? with
    | none => exact (failAt_ne_ok.1 h).elim
    | some e =>
      obtain ⟨rest, c₂, hrest, h⟩ := bind_eq_ok.1 h
      obtain ⟨rfl, rfl⟩ := pure_eq_ok.1 h
      exact .moreArguments (hg he) hcomma (hg hrest)
  next hcomma =>
    obtain ⟨rfl, rfl⟩ := pure_eq_ok.1 h
    exact .lastArgument (hg he) hcomma

/-- What a primary expression may begin with, in the order in which it is tried. -/
theorem primaryForm_sound (hg : g.IsSound) {e? : Option Expr}
    (h : g.primaryForm depth c = .ok e? c') : Derives depth .primaryForm c e? c' := by
  rw [primaryForm, position_bind, sees_bind, ite_run] at h
  split at h
  next hparen => exact .group ((Pattern.isAtStart_char _ _).1 hparen) (hg h)
  next hparen =>
    rw [Token.takeUpdate?_bind] at h
    have hparen' : c.rest.head? ≠ some '(' := mt (Pattern.isAtStart_char _ _).2 hparen
    cases hop : Token.updateOperator? c.rest with
    | some operator =>
      rw [hop] at h
      obtain ⟨e, c₁, he, h⟩ := bind_eq_ok.1 h
      obtain ⟨rfl, rfl⟩ := pure_eq_ok.1 h
      exact .leadingUpdate hop (hg he)
    | none =>
      rw [hop] at h
      dsimp only [Option.elim] at h
      rw [takeWord?_bind, Cursor.word?] at h
      cases hword : Text.leadingWord c.rest with
      | cons x xs =>
        rw [hword] at h
        dsimp only at h
        rw [ite_run] at h
        split at h
        next hnew =>
          obtain ⟨e, c₁, he, h⟩ := bind_eq_ok.1 h
          obtain ⟨rfl, rfl⟩ := pure_eq_ok.1 h
          rw [hnew] at he
          exact .new (hword.trans hnew) (hg he)
        next hnew =>
          obtain ⟨rfl, rfl⟩ := pure_eq_ok.1 h
          exact .word hword (List.cons_ne_nil _ _) hnew
      | nil =>
        -- No word: nothing has been taken, and numbers are looked for at the same place.
        rw [hword] at h
        dsimp only [List.length_nil] at h
        rw [Cursor.skip_of_take_eq_nil rfl, sees_bind, ite_run] at h
        split at h
        next hnumber =>
          obtain ⟨e, c₁, he, h⟩ := bind_eq_ok.1 h
          obtain ⟨rfl, rfl⟩ := pure_eq_ok.1 h
          exact .number hnumber he
        next hnumber =>
          rw [takes_char_bind] at h
          split at h
          next hbracket =>
            obtain ⟨e, c₁, he, h⟩ := bind_eq_ok.1 h
            obtain ⟨rfl, rfl⟩ := pure_eq_ok.1 h
            exact .arrayLiteral hbracket (hg he)
          next hbracket =>
            obtain ⟨rfl, rfl⟩ := pure_eq_ok.1 h
            exact .noPrimary hparen' hop hword (Bool.eq_false_iff.2 hnumber) hbracket

/-- The callee of a `new`, which is no chain. -/
theorem construct_sound (hg : g.IsSound) {start : Nat} {e : Expr}
    (h : g.construct depth start c = .ok e c') : Derives depth (.construct start) c e c' := by
  rw [construct, skipBlanks_bind] at h
  obtain ⟨primary?, c₁, hprimary, h⟩ := bind_eq_ok.1 h
  rw [require_bind_eq_ok] at h
  obtain ⟨primary, rfl, h⟩ := h
  obtain ⟨callee, c₂, hcallee, h⟩ := bind_eq_ok.1 h
  dsimp only at h
  rw [ite_run] at h
  split at h
  next => exact (failAt_bind_ne_ok.1 h).elim
  next hchain =>
    obtain ⟨rfl, rfl⟩ := pure_eq_ok.1 h
    rw [Bool.or_eq_true, not_or, Bool.not_eq_true, Bool.not_eq_true] at hchain
    exact .construct (hg hprimary) (hg hcallee) hchain.1 hchain.2

/-- The links of a callee, and the arguments at their end. -/
theorem calleeLinks_sound (hg : g.IsSound) {before : Links} {callee : Callee}
    (h : g.calleeLinks depth before c = .ok callee c') :
    Derives depth (.calleeLinks before) c callee c' := by
  rw [calleeLinks, here_bind, skipBlanks_bind, Token.takeAccess?_bind] at h
  cases haccess : Token.access? c.pastBlanks.rest with
  | some access =>
    rw [haccess] at h
    obtain ⟨between, c₁, hbetween, h⟩ := bind_eq_ok.1 h
    exact .calleeAccess haccess (hg hbetween) (hg h)
  | none =>
    rw [haccess] at h
    dsimp only [Option.elim] at h
    rw [takes_char_bind] at h
    split at h
    next hparen =>
      obtain ⟨arguments, c₁, harguments, h⟩ := bind_eq_ok.1 h
      rw [position_bind] at h
      obtain ⟨rfl, rfl⟩ := pure_eq_ok.1 h
      exact .calleeArguments haccess hparen (hg harguments)
    next hparen =>
      obtain ⟨rfl, rfl⟩ := pure_eq_ok.1 h
      exact .noCalleeLink haccess hparen

/-- A place behind an update. -/
theorem updated_sound (hg : g.IsSound) {operator : UpdateOperator} {start : Nat} {e : Expr}
    (h : g.updated depth operator start c = .ok e c') :
    Derives depth (.updated operator start) c e c' := by
  rw [updated, bind_eq_ok] at h
  obtain ⟨argument?, c₁, hargument, h⟩ := h
  rw [require_bind_eq_ok] at h
  obtain ⟨argument, rfl, h⟩ := h
  dsimp only at h
  rw [ite_run] at h
  split at h
  next => exact (failAt_bind_ne_ok.1 h).elim
  next hplace =>
    obtain ⟨rfl, rfl⟩ := pure_eq_ok.1 h
    exact .updated (hg hargument) (by simpa using hplace)

/-- Elements to the bracket that closes. -/
theorem array_sound (hg : g.IsSound) {start : Nat} {e : Expr}
    (h : g.array depth start c = .ok e c') : Derives depth (.array start) c e c' := by
  obtain ⟨elements, c₁, helements, h⟩ := bind_eq_ok.1 h
  obtain ⟨hclose, h⟩ := expect_char_bind_eq_ok.1 h
  rw [position_bind] at h
  obtain ⟨rfl, rfl⟩ := pure_eq_ok.1 h
  exact .array (hg helements) hclose

/-- Elements and holes with commas between them. -/
theorem elements_sound (hg : g.IsSound) {elements : List (Option Expr)}
    (h : g.elements depth c = .ok elements c') : Derives depth .elements c elements c' := by
  obtain ⟨e?, c₁, he, h⟩ := bind_eq_ok.1 h
  rw [skipBlanks_bind, takes_char_bind] at h
  split at h
  next hcomma =>
    obtain ⟨rest, c₂, hrest, h⟩ := bind_eq_ok.1 h
    obtain ⟨rfl, rfl⟩ := pure_eq_ok.1 h
    exact .moreElements (hg he) hcomma (hg hrest)
  next hcomma =>
    obtain ⟨rfl, rfl⟩ := pure_eq_ok.1 h
    exact .lastElement (hg he) hcomma

/-- One unfolding of a sound grammar is sound. -/
theorem step_sound (hg : g.IsSound) {p : Production} {v : p.Yield}
    (h : g.step depth p c = .ok v c') : Derives depth p c v c' := by
  cases p with
  | sequence grouped => exact sequence_sound hg h
  | expressions isFirst => exact expressions_sound hg h
  | expression =>
    obtain ⟨below, rfl, hbelow⟩ := nested_sound hg h
    exact .expression hbelow
  | conditional => exact conditional_sound hg h
  | operands least =>
    obtain ⟨below, rfl, hbelow⟩ := nested_sound hg h
    exact .operands hbelow
  | climb least => exact climb_sound hg h
  | infixes least left isBareUnary => exact infixes_sound hg h
  | unary =>
    obtain ⟨below, rfl, hbelow⟩ := nested_sound hg h
    exact .unary hbelow
  | unaryForm => exact unaryForm_sound hg h
  | token => exact token_sound hg h
  | links before => exact links_sound hg h
  | primary =>
    obtain ⟨below, rfl, hbelow⟩ := nested_sound hg h
    exact .primary hbelow
  | primaryForm => exact primaryForm_sound hg h
  | member before access => exact .member (hg h)
  | accesses before access => exact accesses_sound hg h
  | call before optional => exact call_sound hg h
  | arguments => exact arguments_sound hg h
  | argumentList => exact argumentList_sound hg h
  | construct start => exact construct_sound hg h
  | calleeLinks before => exact calleeLinks_sound hg h
  | updated operator start => exact updated_sound hg h
  | array start => exact array_sound hg h
  | elements => exact elements_sound hg h

/-- Whatever is read with some fuel and some levels can be derived. -/
theorem unfold_isSound (fuel : Nat) : IsSound (unfold fuel) := by
  induction fuel with
  | zero =>
    intro depth p c c' v h
    cases h
  | succ fuel ih =>
    intro depth p c c' v h
    exact step_sound ih h

end Grammar

end Estree
