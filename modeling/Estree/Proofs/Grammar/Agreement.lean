import Estree.Grammar.Reader
import Estree.Proofs.Grammar.Opens

/-!
# Readings that agree

`step_agrees`: two grammars that agree on whatever a production opens agree on the production. A
grammar may be compared with itself under other limits, or with one that gives up sooner; so the
faults that are about limits are left open, and `Excuses` says how they are treated.

> `Excuses`: the faults that both readings may have in common, and those of the first one that
> excuse the second one from whatever the first one would have come to.
> `Agrees x c r r'`: the second outcome is the first one, but for its excuses, and the cursor has
> not gone back behind `c`.
> `AgreeBelow`: two grammars agree on all that a production opens, at the places and on the levels
> where it does so.

A comparison of whole grammars is then an induction on the fuel or along another count that falls:
the step is `step_agrees`, and what is left to show is how many levels or how much fuel there is for
what a production opens. A grammar that is compared with itself agrees in any case, and says which
faults it never ends in (`unfold_agrees_self`).

That the cursor has not gone back is carried along because what a production opens may only be
afforded there or further on.
-/

namespace Estree

open Cursor

/-- Whether a production raises the fault about its own text. Of the other faults one is not raised,
since only numerals are taken for numbers; the others are about what the reading is given, or about
what is left when all productions have been read. -/
def Cause.isOfProduction : Cause → Bool
  | tooDeep | outOfFuel | tooLong _ | unexpected _ | invalidNumber _ => false
  | _ => true

/-- How two readings may end in faults: some faults they have in common, and some faults of the
first one excuse the second one from whatever the first one would have read. What a production
raises about its own text is always common. -/
structure Excuses where
  common : Cause → Prop
  excused : Cause → Prop
  common_of_production : ∀ cause, cause.isOfProduction = true → common cause

namespace Scan

variable {x : Excuses} {c c₀ : Cursor} {α β : Type}

/-- The second outcome is the first one, but for its excuses; and the cursor has not gone back. -/
def Agrees (x : Excuses) (c : Cursor) :
    EStateM.Result Fault Cursor α → EStateM.Result Fault Cursor α → Prop
  | .ok a c', r => r = .ok a c' ∧ c.Reaches c'
  | .error fault c', r => x.excused fault.cause ∨ x.common fault.cause ∧ r = .error fault c'

/-- Outcomes that agree from a cursor agree from the ones before it. -/
theorem Agrees.from {r r' : EStateM.Result Fault Cursor α} (h : Agrees x c r r')
    (hc : c₀.Reaches c) : Agrees x c₀ r r' := by
  cases r with
  | ok a c' => exact ⟨h.1, hc.trans h.2⟩
  | error fault c' => exact h

/-- Scans in two parts agree if the first parts do, and the second ones where those end. -/
theorem Agrees.bind {s s' : Scan α} {f f' : α → Scan β} (hs : Agrees x c (s c) (s' c))
    (hf : ∀ a c₁, c.Reaches c₁ → Agrees x c₁ (f a c₁) (f' a c₁)) :
    Agrees x c ((s >>= f) c) ((s' >>= f') c) := by
  show Agrees x c (EStateM.bind s f c) (EStateM.bind s' f' c)
  rw [EStateM.bind, EStateM.bind]
  cases hrun : s c with
  | ok a c₁ =>
    rw [hrun] at hs
    obtain ⟨hs', hc₁⟩ := hs
    rw [hs']
    exact (hf a c₁ hc₁).from hc₁
  | error fault c₁ =>
    rw [hrun] at hs
    rcases hs with hexcused | ⟨hcommon, hs'⟩
    · exact Or.inl hexcused
    · rw [hs']
      exact Or.inr ⟨hcommon, rfl⟩

/-- A value is yielded on the spot by both. -/
theorem agrees_pure (x : Excuses) (c : Cursor) (a : α) :
    Agrees x c ((pure a : Scan α) c) ((pure a : Scan α) c) :=
  ⟨rfl, .refl c⟩

/-- Faults of productions are common to both. -/
theorem agrees_failAt {offset : Nat} {cause : Cause} (h : cause.isOfProduction = true) :
    Agrees x c ((failAt offset cause : Scan α) c) ((failAt offset cause : Scan α) c) :=
  Or.inr ⟨x.common_of_production cause h, rfl⟩

/-- So are those at the cursor. -/
theorem agrees_fail {cause : Cause} (h : cause.isOfProduction = true) :
    Agrees x c ((fail cause : Scan α) c) ((fail cause : Scan α) c) :=
  agrees_failAt h

/-- A fault of the text ends both scans, whatever they would have gone on with. -/
theorem agrees_failAt_bind {offset : Nat} {cause : Cause} {f f' : α → Scan β}
    (h : cause.isOfProduction = true) :
    Agrees x c ((failAt offset cause >>= f) c) ((failAt offset cause >>= f') c) :=
  Or.inr ⟨x.common_of_production cause h, rfl⟩

/-- Nothing goes on after them. -/
theorem agrees_fail_bind {cause : Cause} {f f' : α → Scan β}
    (h : cause.isOfProduction = true) :
    Agrees x c ((fail cause >>= f) c) ((fail cause >>= f') c) :=
  Or.inr ⟨x.common_of_production cause h, rfl⟩

/-! ## Steps that both scans take -/

/-- Both keep the offset. -/
theorem agrees_position {f f' : Nat → Scan β} (h : Agrees x c (f c.position c) (f' c.position c)) :
    Agrees x c ((position >>= f) c) ((position >>= f') c) := h

/-- Both look at what is left. -/
theorem agrees_ahead {f f' : List Char → Scan β} (h : Agrees x c (f c.rest c) (f' c.rest c)) :
    Agrees x c ((ahead >>= f) c) ((ahead >>= f') c) := h

/-- Both skip characters. -/
theorem agrees_skip {n : Nat} {f f' : Unit → Scan β}
    (h : Agrees x (c.skip n) (f () (c.skip n)) (f' () (c.skip n))) :
    Agrees x c ((skip n >>= f) c) ((skip n >>= f') c) :=
  Agrees.from h (c.reaches_skip n)

/-- Both pass blanks. -/
theorem agrees_skipBlanks {f f' : Unit → Scan β}
    (h : Agrees x c.pastBlanks (f () c.pastBlanks) (f' () c.pastBlanks)) :
    Agrees x c ((skipBlanks >>= f) c) ((skipBlanks >>= f') c) :=
  Agrees.from h c.reaches_pastBlanks

/-- Both pass the blanks of the line. -/
theorem agrees_skipInlineBlanks {f f' : Unit → Scan β}
    (h : Agrees x (c.skipBlanks false) (f () (c.skipBlanks false)) (f' () (c.skipBlanks false))) :
    Agrees x c ((skipInlineBlanks >>= f) c) ((skipInlineBlanks >>= f') c) :=
  Agrees.from h (c.reaches_skipBlanks false)

/-- What is required is there for both, or for neither. -/
theorem agrees_require {a? : Option α} {what : Expected} {f f' : α → Scan β}
    (h : ∀ a, a? = some a → Agrees x c (f a c) (f' a c)) :
    Agrees x c ((require a? what >>= f) c) ((require a? what >>= f') c) := by
  cases a? with
  | none => exact agrees_fail_bind rfl
  | some a => exact h a rfl

/-- Both take a character, or neither does. -/
theorem agrees_takes {y : Char} {f f' : Bool → Scan β}
    (htrue : c.rest.head? = some y → Agrees x (c.skip 1) (f true (c.skip 1)) (f' true (c.skip 1)))
    (hfalse : c.rest.head? ≠ some y → Agrees x c (f false c) (f' false c)) :
    Agrees x c ((takes (.char y) >>= f) c) ((takes (.char y) >>= f') c) := by
  rw [takes_char_bind, takes_char_bind]
  by_cases h : c.rest.head? = some y
  · rw [if_pos h, if_pos h]
    exact (htrue h).from (c.reaches_skip 1)
  · rw [if_neg h, if_neg h]
    exact hfalse h

/-- A character that is expected is there for both, or for neither. -/
theorem agrees_expect {y : Char} {what : Expected} {f f' : Unit → Scan β}
    (h : c.rest.head? = some y → Agrees x (c.skip 1) (f () (c.skip 1)) (f' () (c.skip 1))) :
    Agrees x c ((expect (.char y) what >>= f) c) ((expect (.char y) what >>= f') c) := by
  by_cases hy : c.rest.head? = some y
  · have hrun : expect (.char y) what c = .ok () (c.skip 1) := by
      rw [expect, takes_char_bind, if_pos hy]
      rfl
    rw [bind_run hrun, bind_run hrun]
    exact (h hy).from (c.reaches_skip 1)
  · have hrun : ∀ f : Unit → Scan β, (expect (.char y) what >>= f) c =
        .error ⟨.expected what, c.position⟩ c := by
      intro f
      show EStateM.bind (expect (.char y) what) f c = _
      rw [EStateM.bind, expect, takes_char_bind, if_neg hy]
      rfl
    rw [hrun, hrun]
    exact Or.inr ⟨x.common_of_production _ rfl, rfl⟩

/-- Both see a pattern, or neither does. -/
theorem agrees_sees {pattern : Pattern} {f f' : Bool → Scan β}
    (h : Agrees x c (f (c.sees pattern) c) (f' (c.sees pattern) c)) :
    Agrees x c ((sees pattern >>= f) c) ((sees pattern >>= f') c) := h

/-- Both take what a pattern matches. -/
theorem agrees_piece (x : Excuses) (c : Cursor) (pattern : Pattern) :
    Agrees x c (piece pattern c) (piece pattern c) := by
  rw [piece_run]
  exact ⟨rfl, c.reaches_skip _⟩

/-- Both take a run of a class. -/
theorem agrees_takeWhile (x : Excuses) (c : Cursor) (p : Char → Bool) :
    Agrees x c (takeWhile p c) (takeWhile p c) := by
  rw [takeWhile_run]
  exact ⟨rfl, c.reaches_skip _⟩

/-- Both take a word, or neither does. -/
theorem agrees_takeWord {f f' : Option (List Char) → Scan β}
    (hnone : Agrees x c (f none c) (f' none c))
    (hsome : ∀ word c₁, c.ReachesPast c₁ → Agrees x c₁ (f (some word) c₁) (f' (some word) c₁)) :
    Agrees x c ((takeWord? >>= f) c) ((takeWord? >>= f') c) := by
  rw [takeWord?_bind, takeWord?_bind, Cursor.word?]
  cases hword : Text.leadingWord c.rest with
  | nil => exact hnone
  | cons y ys =>
    have hlength : 0 < c.rest.length := by
      refine List.length_pos_iff.2 fun hnil => ?_
      rw [hnil] at hword
      cases hword
    have hpast := reachesPast_skip (n := (y :: ys).length) ⟨hlength, Nat.succ_pos _⟩
    exact (hsome (y :: ys) _ hpast).from hpast.reaches

/-- Scans that go on with an access if one follows. Where none follows, the cursor may go back over
the blanks that have been passed. -/
theorem agrees_takeAccess {f f' : Option Access → Scan β}
    (hnone : Agrees x c (f none c.pastBlanks) (f' none c.pastBlanks))
    (hsome : ∀ access c₁, c.TakesAccess access c₁ →
      Agrees x c₁ (f (some access) c₁) (f' (some access) c₁)) :
    Agrees x c ((skipBlanks >>= fun _ => Token.takeAccess? >>= f) c)
      ((skipBlanks >>= fun _ => Token.takeAccess? >>= f') c) := by
  rw [skipBlanks_bind, skipBlanks_bind, Token.takeAccess?_bind, Token.takeAccess?_bind]
  cases h : Token.access? c.pastBlanks.rest with
  | none => exact hnone
  | some access =>
    have htakes := (Reaches.refl c).takesAccess h
    exact (hsome access _ htakes).from htakes.reachesPast.reaches

/-- Both go on with an access, or neither does. -/
theorem agrees_whenAccess {before : Links} {follow follow' : Access → Scan Links}
    (h : ∀ access c₁, c.TakesAccess access c₁ →
      Agrees x c₁ (follow access c₁) (follow' access c₁)) :
    Agrees x c (Grammar.whenAccess before follow c) (Grammar.whenAccess before follow' c) := by
  rw [Grammar.whenAccess, Grammar.whenAccess, here_bind, here_bind]
  exact agrees_takeAccess ⟨rfl, .refl c⟩ h

/-- Both take an update, or neither does. -/
theorem agrees_takeUpdate {f f' : Option UpdateOperator → Scan β}
    (hnone : Agrees x c (f none c) (f' none c))
    (hsome : ∀ operator, Token.updateOperator? c.rest = some operator →
      Agrees x (c.skip operator.text.length) (f (some operator) (c.skip operator.text.length))
        (f' (some operator) (c.skip operator.text.length))) :
    Agrees x c ((Token.takeUpdate? >>= f) c) ((Token.takeUpdate? >>= f') c) := by
  rw [Token.takeUpdate?_bind, Token.takeUpdate?_bind]
  cases h : Token.updateOperator? c.rest with
  | none => exact hnone
  | some operator => exact (hsome operator h).from (c.reaches_skip _)

end Scan

namespace Leaf

open Scan

variable (x : Excuses) (c : Cursor)

/-- The power of a number is a scan of its own. -/
theorem agrees_power : Agrees x c (power c) (power c) := by
  rw [power]
  refine (agrees_piece x c _).bind fun marker c₁ _ => ?_
  dsimp only
  rw [ite_run]
  split
  next => exact agrees_pure x c₁ _
  next =>
    refine (agrees_piece x c₁ _).bind fun sign c₂ _ => ?_
    refine (agrees_takeWhile x c₂ _).bind fun digits c₃ _ => ?_
    rw [ite_run]
    split
    next => exact agrees_fail_bind rfl
    next => exact agrees_pure x c₃ _

/-- So is a numeral. -/
theorem agrees_numberText : Agrees x c (numberText c) (numberText c) := by
  refine (agrees_takeWhile x c _).bind fun whole c₁ _ => ?_
  refine (agrees_piece x c₁ _).bind fun point c₂ _ => ?_
  rw [ite_run]
  split
  next => exact (agrees_power x c₂).bind fun _ c₃ _ => agrees_pure x c₃ _
  next =>
    refine (agrees_takeWhile x c₂ _).bind fun fraction c₃ _ => ?_
    exact (agrees_power x c₃).bind fun _ c₄ _ => agrees_pure x c₄ _

/-- Where a number starts, its spelling is a numeral, and so it has a value. -/
theorem agrees_number (hstart : Pattern.numberStart.isAtStart c.rest = true) :
    Agrees x c (number c) (number c) := by
  refine agrees_position ?_
  have htext := agrees_numberText x c
  cases hrun : numberText c with
  | error fault c₁ =>
    rw [hrun] at htext
    rw [bind_error hrun]
    exact htext.imp_right fun hcommon => ⟨hcommon.1, rfl⟩
  | ok raw c₁ =>
    rw [hrun] at htext
    obtain ⟨-, hnumeral⟩ := numberText_eq_ok hstart hrun
    obtain ⟨decimal, hread⟩ :=
      Option.isSome_iff_exists.1 (Decimal.read?_isSome_of_isNumeral hnumeral)
    rw [bind_run hrun, hread]
    exact (agrees_pure x c₁ _).from htext.2

/-- So is the name of a property. -/
theorem agrees_propertyName : Agrees x c (propertyName c) (propertyName c) := by
  refine agrees_position (agrees_takeWord ?_ fun word c₁ _ => agrees_pure x c₁ _)
  exact agrees_fail_bind rfl

end Leaf

namespace Grammar

open Scan

/-- The grammars agree on all that the production opens. -/
def AgreeBelow (x : Excuses) (g g' : Grammar) (depth depth' : Nat) (p : Production) (c : Cursor) :
    Prop :=
  ∀ ⦃q c₁⦄, Opens p c q c₁ → Agrees x c₁ (g depth q c₁) (g' depth' q c₁)

variable {x : Excuses} {g g' : Grammar} {depth depth' : Nat} {c : Cursor}

/-- Expressions, in parentheses or not. -/
theorem sequence_agrees {isGrouped : Bool}
    (hbelow : AgreeBelow x g g' depth depth' (.sequence isGrouped) c) :
    Agrees x c (g.sequence depth isGrouped c) (g'.sequence depth' isGrouped c) := by
  refine agrees_skipBlanks (agrees_position ?_)
  cases isGrouped with
  | false =>
    refine (hbelow (.ungrouped c.reaches_pastBlanks)).bind fun es c₁ _ => ?_
    rcases es with _ | ⟨first, _ | ⟨second, rest⟩⟩ <;> exact agrees_pure x c₁ _
  | true =>
    refine agrees_expect fun hopen => ?_
    have hpast := c.reaches_pastBlanks.past (reachesPast_char hopen)
    refine (hbelow (.grouped hpast)).bind fun es c₁ _ => ?_
    refine agrees_expect fun _ => ?_
    rcases es with _ | ⟨first, _ | ⟨second, rest⟩⟩
    · exact agrees_failAt_bind rfl
    · exact agrees_pure x _ _
    · exact agrees_pure x _ _

/-- Expressions with commas between them. -/
theorem expressions_agrees {isFirst : Bool}
    (hbelow : AgreeBelow x g g' depth depth' (.expressions isFirst) c) :
    Agrees x c (g.expressions depth isFirst c) (g'.expressions depth' isFirst c) := by
  refine (hbelow .item).bind fun e? c₁ hc₁ => ?_
  dsimp only
  rw [ite_run, ite_run]
  split
  next => exact agrees_fail_bind rfl
  next =>
    refine agrees_skipBlanks (agrees_position ?_)
    refine agrees_takes (fun hcomma => ?_) fun _ => agrees_pure x _ _
    have hpast := (hc₁.trans c₁.reaches_pastBlanks).past (reachesPast_char hcomma)
    cases e? with
    | none => exact agrees_failAt rfl
    | some e => exact (hbelow (.moreItems hpast)).bind fun es c₂ _ => agrees_pure x c₂ _

/-- Operands and what a question mark brings. -/
theorem conditional_agrees (hbelow : AgreeBelow x g g' depth depth' .conditional c) :
    Agrees x c (g.conditional depth c) (g'.conditional depth' c) := by
  refine (hbelow .test).bind fun test? c₁ hc₁ => ?_
  refine agrees_skipBlanks (agrees_position ?_)
  refine agrees_takes (fun hquestion => ?_) fun _ => agrees_pure x _ _
  have hpast₁ := (hc₁.trans c₁.reaches_pastBlanks).past (reachesPast_char hquestion)
  cases test? with
  | none => exact agrees_failAt rfl
  | some test =>
    refine (hbelow (.branch hpast₁)).bind fun consequent? c₂ hc₂ => ?_
    refine agrees_require fun consequent _ => agrees_skipBlanks (agrees_expect fun hcolon => ?_)
    have hpast₂ := (hpast₁.reaches.trans (hc₂.trans c₂.reaches_pastBlanks)).past
      (reachesPast_char hcolon)
    refine (hbelow (.branch hpast₂)).bind fun alternate? c₃ _ => ?_
    exact agrees_require fun alternate _ => agrees_pure x c₃ _

/-- The first operand and what goes on after it. -/
theorem climb_agrees {least : Nat} (hbelow : AgreeBelow x g g' depth depth' (.climb least) c) :
    Agrees x c (g.climb depth least c) (g'.climb depth' least c) := by
  refine agrees_skipBlanks (agrees_ahead ?_)
  refine (hbelow (.left c.reaches_pastBlanks)).bind fun left? c₁ hc₁ => ?_
  cases left? with
  | none => exact agrees_pure x c₁ _
  | some left =>
    refine (hbelow (.joins (c.reaches_pastBlanks.trans hc₁))).bind fun climbed c₂ _ => ?_
    exact agrees_pure x c₂ _

/-- Infix operators with their right operands. -/
theorem infixes_agrees {least : Nat} {left : Climbed} {isBareUnary : Bool}
    (hbelow : AgreeBelow x g g' depth depth' (.infixes least left isBareUnary) c) :
    Agrees x c (g.infixes depth least left isBareUnary c)
      (g'.infixes depth' least left isBareUnary c) := by
  refine agrees_skipBlanks (agrees_ahead ?_)
  cases hop : Token.infixOperator? c.pastBlanks.rest with
  | none => exact agrees_pure x _ _
  | some operator =>
    dsimp only
    rw [ite_run, ite_run, ite_run, ite_run]
    split
    next => exact agrees_pure x _ _
    next =>
      split
      next => exact agrees_failAt_bind rfl
      next =>
        refine agrees_position (agrees_skip ?_)
        have hpast := c.reaches_pastBlanks.past (reachesPast_skip (Token.infixOperator?_pos hop))
        refine (hbelow (.right hpast)).bind fun right? c₁ hc₁ => ?_
        have hpast' : c.ReachesPast c₁ := hpast.upTo hc₁
        refine agrees_require fun right _ => ?_
        cases operator with
        | binary operator => exact hbelow (.moreJoins hpast')
        | logical logical =>
          dsimp only
          rw [ite_run, ite_run]
          split
          next => exact agrees_failAt_bind rfl
          next => exact hbelow (.moreJoins hpast')

/-- Unary operators and their operand. -/
theorem unaryForm_agrees (hbelow : AgreeBelow x g g' depth depth' .unaryForm c) :
    Agrees x c (g.unaryForm depth c) (g'.unaryForm depth' c) := by
  refine agrees_skipBlanks (agrees_ahead ?_)
  cases hop : Token.unaryOperator? c.pastBlanks.rest with
  | none => exact hbelow (.bare c.reaches_pastBlanks)
  | some operator =>
    refine agrees_position (agrees_skip ?_)
    have hpast := c.reaches_pastBlanks.past (reachesPast_skip (Token.unaryOperator?_pos hop))
    refine (hbelow (.argument hpast)).bind fun argument? c₁ _ => ?_
    exact agrees_require fun argument _ => agrees_pure x c₁ _

/-- A run and the update behind it. -/
theorem token_agrees (hbelow : AgreeBelow x g g' depth depth' .token c) :
    Agrees x c (g.token depth c) (g'.token depth' c) := by
  refine agrees_skipBlanks ?_
  refine (hbelow (.head c.reaches_pastBlanks)).bind fun primary? c₁ hc₁ => ?_
  cases primary? with
  | none => exact agrees_pure x c₁ _
  | some primary =>
    refine (hbelow (.run (c.reaches_pastBlanks.trans hc₁))).bind fun run c₂ _ => ?_
    refine agrees_skipInlineBlanks (agrees_takeUpdate (agrees_pure x _ _) fun operator _ => ?_)
    refine Agrees.bind ?_ fun e c₃ _ => agrees_pure x c₃ _
    rw [trailingUpdate, ite_run]
    split
    next => exact agrees_failAt_bind rfl
    next => exact agrees_pure x _ _

/-- Links, one after the other. -/
theorem links_agrees {before : Links} (hbelow : AgreeBelow x g g' depth depth' (.links before) c) :
    Agrees x c (g.links depth before c) (g'.links depth' before c) := by
  rw [links, links, here_bind, here_bind]
  refine agrees_takeAccess ?_ fun access c₁ htakes => ?_
  · dsimp only
    rw [takes_char_bind, takes_char_bind]
    by_cases hparen : c.pastBlanks.rest.head? = some '('
    · rw [if_pos hparen, if_pos hparen]
      have hpast := c.reaches_pastBlanks.past (reachesPast_char hparen)
      refine Agrees.from ?_ hpast.reaches
      refine (hbelow (.linkCall hpast)).bind fun between c₁ hc₁ => ?_
      exact hbelow (.moreLinks (hpast.upTo hc₁))
    · rw [if_neg hparen, if_neg hparen]
      exact ⟨rfl, .refl c⟩
  · refine (hbelow (.linkMember htakes)).bind fun between c₂ hc₂ => ?_
    exact hbelow (.moreLinks (htakes.reachesPast.upTo hc₂))

/-- Accesses, one after the other, or a call that takes over. -/
theorem accesses_agrees {before : Links} {access : Access}
    (hbelow : AgreeBelow x g g' depth depth' (.accesses before access) c) :
    Agrees x c (g.accesses depth before access c) (g'.accesses depth' before access c) := by
  rw [accesses, accesses]
  dsimp only
  rw [ite_run, ite_run]
  split
  next hcomputed =>
    refine (hbelow .computed).bind fun property? c₁ hc₁ => ?_
    refine agrees_require fun property _ => agrees_skipBlanks (agrees_expect fun _ => ?_)
    refine agrees_position (agrees_whenAccess fun next c₂ hnext => ?_)
    have hclose := c₁.reaches_pastBlanks_skip 1
    exact hbelow (.moreAccesses (hnext.from (hc₁.trans hclose)))
  next hcomputed =>
    refine agrees_skipBlanks (agrees_takes (fun hparen => ?_) fun _ => ?_)
    · exact hbelow (.handover (Bool.eq_false_iff.2 hcomputed) hparen)
    · refine (Leaf.agrees_propertyName x _).bind fun property c₁ hc₁ => ?_
      refine agrees_whenAccess fun next c₂ hnext => ?_
      exact hbelow (.moreAccesses (hnext.from (c.reaches_pastBlanks.trans hc₁)))

/-- A call and what goes on after it. -/
theorem call_agrees {before : Links} {optional : Bool}
    (hbelow : AgreeBelow x g g' depth depth' (.call before optional) c) :
    Agrees x c (g.call depth before optional c) (g'.call depth' before optional c) := by
  refine (hbelow .callArguments).bind fun arguments c₁ hc₁ => ?_
  refine agrees_position (agrees_whenAccess fun access c₂ haccess => ?_)
  exact hbelow (.callMember (haccess.from hc₁))

/-- Arguments to the parenthesis that closes. -/
theorem arguments_agrees (hbelow : AgreeBelow x g g' depth depth' .arguments c) :
    Agrees x c (g.arguments depth c) (g'.arguments depth' c) := by
  refine (hbelow .argumentList).bind fun arguments c₁ _ => ?_
  exact agrees_expect fun _ => agrees_pure x _ _

/-- Arguments with commas between them. -/
theorem argumentList_agrees (hbelow : AgreeBelow x g g' depth depth' .argumentList c) :
    Agrees x c (g.argumentList depth c) (g'.argumentList depth' c) := by
  refine (hbelow .listed).bind fun e? c₁ hc₁ => ?_
  refine agrees_skipBlanks (agrees_position ?_)
  refine agrees_takes (fun hcomma => ?_) fun _ => agrees_pure x _ _
  have hpast := (hc₁.trans c₁.reaches_pastBlanks).past (reachesPast_char hcomma)
  cases e? with
  | none => exact agrees_failAt rfl
  | some e => exact (hbelow (.moreArguments hpast)).bind fun es c₂ _ => agrees_pure x c₂ _

/-- Everything that a primary expression may be. -/
theorem primaryForm_agrees (hbelow : AgreeBelow x g g' depth depth' .primaryForm c) :
    Agrees x c (g.primaryForm depth c) (g'.primaryForm depth' c) := by
  refine agrees_position (agrees_sees ?_)
  rw [ite_run, ite_run]
  split
  next => exact hbelow .group
  next =>
    refine agrees_takeUpdate ?_ fun operator hop => ?_
    · refine agrees_takeWord ?_ fun word c₁ hpast => ?_
      · refine agrees_sees ?_
        rw [ite_run, ite_run]
        split
        next hstart => exact (Leaf.agrees_number x c hstart).bind fun e c₁ _ => agrees_pure x c₁ _
        next =>
          refine agrees_takes (fun hbracket => ?_) fun _ => agrees_pure x c _
          refine (hbelow (.bracket (reachesPast_char hbracket))).bind fun e c₁ _ => ?_
          exact agrees_pure x c₁ _
      · dsimp only
        rw [ite_run, ite_run]
        split
        next => exact (hbelow (.new hpast)).bind fun e c₂ _ => agrees_pure x c₂ _
        next => exact agrees_pure x c₁ _
    · have hpast := reachesPast_skip (Token.updateOperator?_pos hop)
      exact (hbelow (.update hpast)).bind fun e c₁ _ => agrees_pure x c₁ _

/-- A `new` with its callee. -/
theorem construct_agrees {start : Nat}
    (hbelow : AgreeBelow x g g' depth depth' (.construct start) c) :
    Agrees x c (g.construct depth start c) (g'.construct depth' start c) := by
  refine agrees_skipBlanks ?_
  refine (hbelow (.callee c.reaches_pastBlanks)).bind fun primary? c₁ hc₁ => ?_
  refine agrees_require fun primary _ => ?_
  refine (hbelow (.calleeRun (c.reaches_pastBlanks.trans hc₁))).bind fun callee c₂ _ => ?_
  dsimp only
  rw [ite_run]
  split
  next => exact agrees_failAt_bind rfl
  next => exact agrees_pure x c₂ _

/-- The links of a callee, and its arguments. -/
theorem calleeLinks_agrees {before : Links}
    (hbelow : AgreeBelow x g g' depth depth' (.calleeLinks before) c) :
    Agrees x c (g.calleeLinks depth before c) (g'.calleeLinks depth' before c) := by
  rw [calleeLinks, calleeLinks, here_bind, here_bind]
  refine agrees_takeAccess ?_ fun access c₁ htakes => ?_
  · dsimp only
    rw [takes_char_bind, takes_char_bind]
    by_cases hparen : c.pastBlanks.rest.head? = some '('
    · rw [if_pos hparen, if_pos hparen]
      have hpast := c.reaches_pastBlanks.past (reachesPast_char hparen)
      refine Agrees.from ?_ hpast.reaches
      refine (hbelow (.calleeArguments hpast)).bind fun arguments c₁ _ => ?_
      exact agrees_position (agrees_pure x c₁ _)
    · rw [if_neg hparen, if_neg hparen]
      exact ⟨rfl, .refl c⟩
  · refine (hbelow (.calleeMember htakes)).bind fun between c₂ hc₂ => ?_
    exact hbelow (.moreCalleeLinks (htakes.reachesPast.upTo hc₂))

/-- A place behind an update. -/
theorem updated_agrees {operator : UpdateOperator} {start : Nat}
    (hbelow : AgreeBelow x g g' depth depth' (.updated operator start) c) :
    Agrees x c (g.updated depth operator start c) (g'.updated depth' operator start c) := by
  refine (hbelow .place).bind fun argument? c₁ _ => ?_
  refine agrees_require fun argument _ => ?_
  dsimp only
  rw [ite_run]
  split
  next => exact agrees_failAt_bind rfl
  next => exact agrees_pure x c₁ _

/-- An array to its bracket. -/
theorem array_agrees {start : Nat} (hbelow : AgreeBelow x g g' depth depth' (.array start) c) :
    Agrees x c (g.array depth start c) (g'.array depth' start c) := by
  refine (hbelow .elements).bind fun elements c₁ _ => ?_
  exact agrees_expect fun _ => agrees_position (agrees_pure x _ _)

/-- Elements with commas between them. -/
theorem elements_agrees (hbelow : AgreeBelow x g g' depth depth' .elements c) :
    Agrees x c (g.elements depth c) (g'.elements depth' c) := by
  refine (hbelow .element).bind fun e? c₁ hc₁ => ?_
  refine agrees_skipBlanks (agrees_takes (fun hcomma => ?_) fun _ => agrees_pure x _ _)
  have hpast := (hc₁.trans c₁.reaches_pastBlanks).past (reachesPast_char hcomma)
  exact (hbelow (.moreElements hpast)).bind fun es c₂ _ => agrees_pure x c₂ _

/-- Grammars that agree on all that a production opens, and on what it nests, agree on it. -/
theorem step_agrees {p : Production} (hbelow : AgreeBelow x g g' depth depth' p c)
    (hnested : ∀ q, Nests p q → Agrees x c (g.nested depth q c) (g'.nested depth' q c)) :
    Agrees x c (g.step depth p c) (g'.step depth' p c) := by
  cases p with
  | sequence isGrouped => exact sequence_agrees hbelow
  | expressions isFirst => exact expressions_agrees hbelow
  | expression => exact hnested _ .expression
  | conditional => exact conditional_agrees hbelow
  | operands least => exact hnested _ .operands
  | climb least => exact climb_agrees hbelow
  | infixes least left isBareUnary => exact infixes_agrees hbelow
  | unary => exact hnested _ .unary
  | unaryForm => exact unaryForm_agrees hbelow
  | token => exact token_agrees hbelow
  | links before => exact links_agrees hbelow
  | primary => exact hnested _ .primary
  | primaryForm => exact primaryForm_agrees hbelow
  | member before access => exact hbelow .member
  | accesses before access => exact accesses_agrees hbelow
  | call before optional => exact call_agrees hbelow
  | arguments => exact arguments_agrees hbelow
  | argumentList => exact argumentList_agrees hbelow
  | construct start => exact construct_agrees hbelow
  | calleeLinks before => exact calleeLinks_agrees hbelow
  | updated operator start => exact updated_agrees hbelow
  | array start => exact array_agrees hbelow
  | elements => exact elements_agrees hbelow

/-- A production is read again in the same way; so of its faults each is a common one. -/
theorem unfold_agrees_self (hfuel : x.common .outOfFuel) (hdepth : x.common .tooDeep)
    (fuel : Nat) : ∀ (depth : Nat) (p : Production) (c : Cursor),
      Agrees x c (unfold fuel depth p c) (unfold fuel depth p c) := by
  induction fuel with
  | zero => exact fun _ _ _ => Or.inr ⟨hfuel, rfl⟩
  | succ fuel ih =>
    intro depth p c
    refine step_agrees (fun q c₁ _ => ih depth q c₁) fun q _ => ?_
    cases depth with
    | zero => exact Or.inr ⟨hdepth, rfl⟩
    | succ below => exact ih below q c

end Grammar

/-! ## Whole texts -/

/-- Texts are read alike if their sequences are, and what is left is a common fault. -/
theorem Scan.programOf_agrees {x : Excuses} {c : Cursor} {s s' : Nat → Scan (Option Expr)}
    (hleft : ∀ y, x.common (.unexpected y))
    (h : Agrees x c (s c.rest.length c) (s' c.rest.length c)) :
    Agrees x c (programOf s c) (programOf s' c) := by
  refine agrees_ahead (h.bind fun e? c₁ _ => ?_)
  refine agrees_skipBlanks (agrees_ahead ?_)
  cases c₁.pastBlanks.rest with
  | nil =>
    cases e? with
    | none => exact agrees_fail rfl
    | some e => exact agrees_pure x _ e
  | cons y ys => cases e? <;> exact Or.inr ⟨hleft y, rfl⟩

/-- A whole text is compared by its sequence. -/
theorem Scan.program_agrees {x : Excuses} {c : Cursor} {depth depth' : Nat}
    (hleft : ∀ y, x.common (.unexpected y))
    (h : Agrees x c (Grammar.unfold (Grammar.fuel c.rest.length) depth (.sequence false) c)
      (Grammar.unfold (Grammar.fuel c.rest.length) depth' (.sequence false) c)) :
    Agrees x c (program depth c) (program depth' c) :=
  programOf_agrees hleft h

end Estree
