import Estree.Proofs.Grammar.Depth
import Estree.Proofs.Grammar.Edges
import Estree.Proofs.Grammar.Spans
import Estree.Proofs.Text.Locations

/-!
# Where faults point

`parseWithin_error`: the offset of an error is between two characters of the text, and not behind
the place that the reading had come to; line and column are those of this offset.

Most faults point at the cursor itself. The others point at what the cursor has passed
(`Cursor.HasPassed`): at an operator or a parenthesis whose offset was kept, or at the start of a
node, which stands in the text (`Derives.located`). An offset stays passed as the cursor goes on, so
all that a production needs to know is that the offsets it is given have been passed before it
begins (`Production.IsGivenPassed`).

> `PointsInto text r`: the outcome is in the text. With a value the cursor stands there, and a fault
> points at what the cursor has passed when the fault was raised.
> `PointsInto.bind`: what goes on after a value has the cursor of that value, so a scan is followed
> from step to step, and the value may be used for what comes after.
> `StaysIn`: the grammar ends every production in the text, if its offsets have been passed. It is
> kept by every unfolding (`unfold_staysIn`), as the step is (`step_pointsInto`).

Three productions raise a fault at a node that they have just read: an infix operator at its left
operand, an update at its place, and a `new` at its own start. For these the start of the node has
to be passed, and where the node stands is known since what is read can be derived.
-/

open Estree.Expr

namespace Estree

open Scan

namespace Cursor

variable {text : List Char} {c c' : Cursor} {offset : Nat}

/-- The cursor stands in the text, at the offset or behind it, and the offset is between two
characters. -/
structure HasPassed (text : List Char) (c : Cursor) (offset : Nat) : Prop where
  isIn : c.IsIn text
  isBoundary : Text.IsBoundary text offset
  le_position : offset ≤ c.position

/-- A cursor in the text has passed its own place. -/
theorem IsIn.hasPassed (h : c.IsIn text) : c.HasPassed text c.position :=
  ⟨h, h.isBoundary, Nat.le_refl _⟩

/-- What has been passed stays so. -/
theorem HasPassed.of_reaches (h : c.HasPassed text offset) (hreaches : c.Reaches c') :
    c'.HasPassed text offset :=
  ⟨h.isIn.of_reaches hreaches, h.isBoundary, Nat.le_trans h.le_position hreaches.position_le⟩

/-- The start of a node has been passed once the node has been read. -/
theorem hasPassed_of_areAt {lo : Nat} {e : Expr} (hc : c.IsIn text)
    (h : AreAt text lo c.position [e]) : c.HasPassed text e.span.start := by
  have hroot := h.root
  obtain ⟨-, -, hstop⟩ := areAt_singleton_iff.1 h
  exact ⟨hc, hroot.start_isBoundary, Nat.le_trans (Nat.le_of_lt hroot.start_lt_stop) hstop⟩

end Cursor

namespace Scan

variable {α β : Type} {text : List Char} {c : Cursor} {offset : Nat} {cause : Cause}

/-- The outcome is in the text: the cursor stands there, and a fault points at what it has
passed. -/
def PointsInto (text : List Char) : EStateM.Result Fault Cursor α → Prop
  | .ok _ c => c.IsIn text
  | .error fault c => c.HasPassed text fault.offset

/-- Scans in two parts point into the text if the first part does, and the second one where it
ends. -/
theorem PointsInto.bind {s : Scan α} {f : α → Scan β} (hs : PointsInto text (s c))
    (hf : ∀ a c₁, s c = .ok a c₁ → c₁.IsIn text → PointsInto text (f a c₁)) :
    PointsInto text ((s >>= f) c) := by
  cases hrun : s c with
  | ok a c₁ =>
    rw [hrun] at hs
    rw [bind_run hrun]
    exact hf a c₁ hrun hs
  | error fault c₁ =>
    rw [hrun] at hs
    rw [bind_error hrun]
    exact hs

/-- A value is yielded on the spot. -/
theorem pointsInto_pure (a : α) (h : c.IsIn text) : PointsInto text ((pure a : Scan α) c) := h

/-- A fault points at what has been passed. -/
theorem pointsInto_failAt (h : c.HasPassed text offset) :
    PointsInto text ((failAt offset cause : Scan α) c) := h

/-- A fault points at the cursor. -/
theorem pointsInto_fail (h : c.IsIn text) : PointsInto text ((fail cause : Scan α) c) :=
  h.hasPassed

/-- A fault ends the scan, whatever it would have gone on with. -/
theorem pointsInto_failAt_bind {f : α → Scan β} (h : c.HasPassed text offset) :
    PointsInto text ((failAt offset cause >>= f) c) := h

/-- Nothing goes on after such a fault. -/
theorem pointsInto_fail_bind {f : α → Scan β} (h : c.IsIn text) :
    PointsInto text ((fail cause >>= f) c) := h.hasPassed

/-! ## Steps -/

/-- What is required is there, or the fault is at the cursor. -/
theorem pointsInto_require {a? : Option α} {what : Expected} {f : α → Scan β} (hc : c.IsIn text)
    (h : ∀ a, a? = some a → PointsInto text (f a c)) :
    PointsInto text ((require a? what >>= f) c) := by
  cases a? with
  | none => exact pointsInto_fail_bind hc
  | some a => exact h a rfl

/-- A character is taken, or it is not there. -/
theorem pointsInto_takes {x : Char} {f : Bool → Scan β} (hc : c.IsIn text)
    (htrue : (c.skip 1).IsIn text → PointsInto text (f true (c.skip 1)))
    (hfalse : PointsInto text (f false c)) : PointsInto text ((takes (.char x) >>= f) c) := by
  rw [takes_char_bind]
  split
  next => exact htrue (hc.skip 1)
  next => exact hfalse

/-- A character that is expected is taken, or the fault is at the cursor. -/
theorem pointsInto_expect {x : Char} {what : Expected} {f : Unit → Scan β} (hc : c.IsIn text)
    (h : (c.skip 1).IsIn text → PointsInto text (f () (c.skip 1))) :
    PointsInto text ((expect (.char x) what >>= f) c) := by
  have hexpect : PointsInto text (expect (.char x) what c) := by
    rw [expect]
    exact pointsInto_takes hc (fun hskip => pointsInto_pure () hskip) (pointsInto_fail hc)
  refine hexpect.bind fun _ c₁ hrun hc₁ => ?_
  rw [expect, takes_char_bind] at hrun
  split at hrun
  next =>
    obtain ⟨-, rfl⟩ := pure_eq_ok.1 hrun
    exact h hc₁
  next => exact (fail_ne_ok.1 hrun).elim

/-- A pattern takes a piece of the text. -/
theorem pointsInto_piece (pattern : Pattern) (hc : c.IsIn text) :
    PointsInto text (piece pattern c) := by
  rw [piece_run]
  exact hc.skip _

/-- So does a run of a class. -/
theorem pointsInto_takeWhile (p : Char → Bool) (hc : c.IsIn text) :
    PointsInto text (takeWhile p c) := by
  rw [takeWhile_run]
  exact hc.skip _

/-- An access is taken behind blanks, or none is there. -/
theorem pointsInto_takeAccess {f : Option Access → Scan β} (hc : c.IsIn text)
    (hnone : PointsInto text (f none c))
    (hsome : ∀ access c₁, c₁.IsIn text → PointsInto text (f (some access) c₁)) :
    PointsInto text ((Token.takeAccess? >>= f) c) := by
  rw [Token.takeAccess?_bind]
  cases Token.access? c.rest with
  | none => exact hnone
  | some access => exact hsome access _ (hc.skip _)

/-- An update is taken, or none is there. -/
theorem pointsInto_takeUpdate {f : Option UpdateOperator → Scan β}
    (hnone : PointsInto text (f none c))
    (hsome : ∀ operator : UpdateOperator,
      PointsInto text (f (some operator) (c.skip operator.text.length))) :
    PointsInto text ((Token.takeUpdate? >>= f) c) := by
  rw [Token.takeUpdate?_bind]
  cases Token.updateOperator? c.rest with
  | none => exact hnone
  | some operator => exact hsome operator

end Scan

namespace Leaf

open Cursor

variable {text : List Char} {c : Cursor}

/-- The power of a number ends in the text. -/
theorem pointsInto_power (hc : c.IsIn text) : PointsInto text (power c) := by
  rw [power]
  refine (pointsInto_piece _ hc).bind fun marker c₁ _ hc₁ => ?_
  dsimp only
  rw [ite_run]
  split
  next => exact pointsInto_pure _ hc₁
  next =>
    refine (pointsInto_piece _ hc₁).bind fun sign c₂ _ hc₂ => ?_
    refine (pointsInto_takeWhile _ hc₂).bind fun digits c₃ _ hc₃ => ?_
    rw [ite_run]
    split
    next => exact pointsInto_fail_bind hc₃
    next => exact pointsInto_pure _ hc₃

/-- So does a numeral. -/
theorem pointsInto_numberText (hc : c.IsIn text) : PointsInto text (numberText c) := by
  refine (pointsInto_takeWhile _ hc).bind fun whole c₁ _ hc₁ => ?_
  refine (pointsInto_piece _ hc₁).bind fun point c₂ _ hc₂ => ?_
  rw [ite_run]
  split
  next => exact (pointsInto_power hc₂).bind fun _ c₃ _ hc₃ => pointsInto_pure _ hc₃
  next =>
    refine (pointsInto_takeWhile _ hc₂).bind fun fraction c₃ _ hc₃ => ?_
    exact (pointsInto_power hc₃).bind fun _ c₄ _ hc₄ => pointsInto_pure _ hc₄

/-- So does a number. -/
theorem pointsInto_number (hc : c.IsIn text)
    (hstart : Pattern.numberStart.isAtStart c.rest = true) : PointsInto text (number c) := by
  rw [number, position_bind]
  refine (pointsInto_numberText hc).bind fun raw c₁ hrun hc₁ => ?_
  obtain ⟨hpass, -⟩ := numberText_eq_ok hstart hrun
  cases Decimal.read? raw with
  | some decimal => exact pointsInto_pure _ hc₁
  | none => exact pointsInto_failAt (hc.hasPassed.of_reaches hpass.reaches)

/-- So does the name of a property. -/
theorem pointsInto_propertyName (hc : c.IsIn text) : PointsInto text (propertyName c) := by
  rw [propertyName, position_bind, takeWord?_bind]
  have hword := hc.skip (Text.leadingWord c.rest).length
  exact pointsInto_require hword fun word _ => pointsInto_pure _ hword

end Leaf

/-- The offsets that a production is given have been passed where it begins. Updates and arrays keep
theirs only for the node. -/
def Production.IsGivenPassed (text : List Char) : Production → Cursor → Prop
  | .infixes _ left _, c => c.HasPassed text left.expr.span.start
  | .construct start, c => c.HasPassed text start
  | _, c => c.IsIn text

/-- A production whose offsets have been passed begins in the text. -/
theorem Production.IsGivenPassed.isIn {text : List Char} {p : Production} {c : Cursor}
    (h : p.IsGivenPassed text c) : c.IsIn text := by
  cases p with
  | infixes | construct => exact Cursor.HasPassed.isIn h
  | _ => exact h

namespace Grammar

open Cursor

/-! ## Productions -/

/-- Whatever a grammar reads with so many levels left, it ends in the text. -/
def StaysIn (g : Grammar) (text : List Char) (depth : Nat) : Prop :=
  ∀ ⦃p : Production⦄ ⦃c : Cursor⦄, p.IsGivenPassed text c → PointsInto text (g depth p c)

variable {g : Grammar} {text : List Char} {depth : Nat} {c : Cursor}

/-- An empty pair of parentheses is a fault at the one that opens. -/
theorem sequence_pointsInto (hsound : g.IsSound) (hg : g.StaysIn text depth) {isGrouped : Bool}
    (hc : c.IsIn text) : PointsInto text (g.sequence depth isGrouped c) := by
  rw [sequence, skipBlanks_bind, position_bind]
  cases isGrouped with
  | false =>
    refine PointsInto.bind (hg hc.pastBlanks) fun es c₁ _ hc₁ => ?_
    rcases es with _ | ⟨first, _ | ⟨second, rest⟩⟩ <;> exact pointsInto_pure _ hc₁
  | true =>
    refine pointsInto_expect hc.pastBlanks fun hopen => ?_
    refine PointsInto.bind (hg hopen) fun es c₁ hrun hc₁ => ?_
    have hreaches := (c.pastBlanks.reaches_skip 1).trans (hsound hrun).reaches
    refine pointsInto_expect hc₁ fun hclose => ?_
    rcases es with _ | ⟨first, _ | ⟨second, rest⟩⟩
    · exact pointsInto_failAt_bind
        (hc.pastBlanks.hasPassed.of_reaches (hreaches.trans (c₁.reaches_skip 1)))
    · exact pointsInto_pure _ hclose
    · exact pointsInto_pure _ hclose

/-- A missing expression is a fault at its comma, or behind one. -/
theorem expressions_pointsInto (hg : g.StaysIn text depth) {isFirst : Bool} (hc : c.IsIn text) :
    PointsInto text (g.expressions depth isFirst c) := by
  refine PointsInto.bind (hg hc) fun e? c₁ _ hc₁ => ?_
  dsimp only
  rw [ite_run]
  split
  next => exact pointsInto_fail_bind hc₁
  next =>
    rw [skipBlanks_bind, position_bind]
    refine pointsInto_takes hc₁.pastBlanks (fun hcomma => ?_) (pointsInto_pure _ hc₁.pastBlanks)
    cases e? with
    | none => exact pointsInto_failAt (hc₁.pastBlanks.hasPassed.of_reaches (reaches_skip _ 1))
    | some e => exact PointsInto.bind (hg hcomma) fun es c₂ _ hc₂ => pointsInto_pure _ hc₂

/-- A missing branch or colon is a fault at the cursor. -/
theorem conditional_pointsInto (hg : g.StaysIn text depth) (hc : c.IsIn text) :
    PointsInto text (g.conditional depth c) := by
  refine PointsInto.bind (hg hc) fun test? c₁ _ hc₁ => ?_
  rw [skipBlanks_bind, position_bind]
  refine pointsInto_takes hc₁.pastBlanks (fun hquestion => ?_) (pointsInto_pure _ hc₁.pastBlanks)
  cases test? with
  | none => exact pointsInto_failAt (hc₁.pastBlanks.hasPassed.of_reaches (reaches_skip _ 1))
  | some test =>
    refine PointsInto.bind (hg hquestion) fun consequent? c₂ _ hc₂ => ?_
    refine pointsInto_require hc₂ fun consequent _ => ?_
    rw [skipBlanks_bind]
    refine pointsInto_expect hc₂.pastBlanks fun hcolon => ?_
    refine PointsInto.bind (hg hcolon) fun alternate? c₃ _ hc₃ => ?_
    exact pointsInto_require hc₃ fun alternate _ => pointsInto_pure _ hc₃

/-- The start of the left operand is handed on to all that is joined to it. -/
theorem climb_pointsInto (hsound : g.IsSound) (hg : g.StaysIn text depth) {least : Nat}
    (hc : c.IsIn text) : PointsInto text (g.climb depth least c) := by
  rw [climb, skipBlanks_bind, ahead_bind]
  refine PointsInto.bind (hg hc.pastBlanks) fun left? c₁ hrun hc₁ => ?_
  cases left? with
  | none => exact pointsInto_pure _ hc₁
  | some left =>
    have hleft : AreAt text c.pastBlanks.position c₁.position [left] :=
      (hsound hrun).located hc.pastBlanks
    refine PointsInto.bind (hg (hasPassed_of_areAt hc₁ hleft)) fun climbed c₂ _ hc₂ => ?_
    exact pointsInto_pure _ hc₂

/-- An operator that may not stand there is a fault at the left operand or at the operator. -/
theorem infixes_pointsInto (hsound : g.IsSound) (hg : g.StaysIn text depth) {least : Nat}
    {left : Climbed} {isBareUnary : Bool} (hleft : c.HasPassed text left.expr.span.start) :
    PointsInto text (g.infixes depth least left isBareUnary c) := by
  have hc := hleft.isIn.pastBlanks
  rw [infixes, skipBlanks_bind, ahead_bind]
  cases Token.infixOperator? c.pastBlanks.rest with
  | none => exact pointsInto_pure _ hc
  | some operator =>
    dsimp only
    rw [ite_run, ite_run]
    split
    next => exact pointsInto_pure _ hc
    next =>
      split
      next => exact pointsInto_failAt_bind (hleft.of_reaches c.reaches_pastBlanks)
      next =>
        rw [position_bind, skip_bind]
        refine PointsInto.bind (hg (hc.skip _)) fun right? c₁ hrun hc₁ => ?_
        have hreaches := (c.pastBlanks.reaches_skip _).trans (hsound hrun).reaches
        refine pointsInto_require hc₁ fun right _ => ?_
        have hjoined : c₁.HasPassed text (operator.join left.expr right.expr).span.start := by
          rw [span_join]
          exact hleft.of_reaches (c.reaches_pastBlanks.trans hreaches)
        cases operator with
        | binary operator => exact hg hjoined
        | logical logical =>
          dsimp only
          rw [ite_run]
          split
          next => exact pointsInto_failAt_bind (hc.hasPassed.of_reaches hreaches)
          next => exact hg hjoined

/-- A missing operand is a fault at the cursor. -/
theorem unaryForm_pointsInto (hg : g.StaysIn text depth) (hc : c.IsIn text) :
    PointsInto text (g.unaryForm depth c) := by
  rw [unaryForm, skipBlanks_bind, ahead_bind]
  cases Token.unaryOperator? c.pastBlanks.rest with
  | none => exact hg hc.pastBlanks
  | some operator =>
    dsimp only
    rw [position_bind, skip_bind]
    refine PointsInto.bind (hg (hc.pastBlanks.skip _)) fun argument? c₁ _ hc₁ => ?_
    exact pointsInto_require hc₁ fun argument _ => pointsInto_pure _ hc₁

/-- What `++` or `--` is applied to begins where its run of links does. -/
theorem token_pointsInto (hsound : g.IsSound) (hg : g.StaysIn text depth) (hc : c.IsIn text) :
    PointsInto text (g.token depth c) := by
  rw [token, skipBlanks_bind]
  refine PointsInto.bind (hg hc.pastBlanks) fun primary? c₁ hprimary hc₁ => ?_
  cases primary? with
  | none => exact pointsInto_pure _ hc₁
  | some primary =>
    refine PointsInto.bind (hg hc₁) fun run c₂ hrun hc₂ => ?_
    have hhead : AreAt text c.pastBlanks.position c₁.position [primary] :=
      (hsound hprimary).located hc.pastBlanks
    have hnode := areAt_finish ((hsound hrun).located hc₁ _ hhead)
    rw [skipInlineBlanks_bind]
    have hc₃ := hc₂.of_reaches (c₂.reaches_skipBlanks false)
    refine pointsInto_takeUpdate (pointsInto_pure _ hc₃) fun operator => ?_
    have hc₄ := hc₃.skip operator.text.length
    refine PointsInto.bind ?_ fun e c₅ _ hc₅ => pointsInto_pure _ hc₅
    rw [trailingUpdate, ite_run]
    split
    next =>
      have hstart := hasPassed_of_areAt hc₂ hnode
      exact pointsInto_failAt_bind
        (hstart.of_reaches ((c₂.reaches_skipBlanks false).trans (reaches_skip _ _)))
    next => exact pointsInto_pure _ hc₄

/-- Links go on from one to the next. -/
theorem links_pointsInto (hg : g.StaysIn text depth) {before : Links} (hc : c.IsIn text) :
    PointsInto text (g.links depth before c) := by
  rw [links, here_bind, skipBlanks_bind]
  refine pointsInto_takeAccess hc.pastBlanks ?_ fun access c₁ hc₁ => ?_
  · refine pointsInto_takes hc.pastBlanks (fun hparen => ?_) hc
    exact PointsInto.bind (hg hparen) fun between c₁ _ hc₁ => hg hc₁
  · exact PointsInto.bind (hg hc₁) fun between c₂ _ hc₂ => hg hc₂

/-- What an access goes on with begins in the text. -/
theorem whenAccess_pointsInto {before : Links} {follow : Access → Scan Links} (hc : c.IsIn text)
    (h : ∀ access c₁, c₁.IsIn text → PointsInto text (follow access c₁)) :
    PointsInto text (whenAccess before follow c) := by
  rw [whenAccess, here_bind, skipBlanks_bind]
  exact pointsInto_takeAccess hc.pastBlanks hc h

/-- A missing property or bracket is a fault at the cursor. -/
theorem accesses_pointsInto (hg : g.StaysIn text depth) {before : Links} {access : Access}
    (hc : c.IsIn text) : PointsInto text (g.accesses depth before access c) := by
  rw [accesses]
  dsimp only
  rw [ite_run]
  split
  next =>
    refine PointsInto.bind (hg hc) fun property? c₁ _ hc₁ => ?_
    refine pointsInto_require hc₁ fun property _ => ?_
    rw [skipBlanks_bind]
    refine pointsInto_expect hc₁.pastBlanks fun hclose => ?_
    rw [position_bind]
    exact whenAccess_pointsInto hclose fun next c₂ hc₂ => hg hc₂
  next =>
    rw [skipBlanks_bind]
    refine pointsInto_takes hc.pastBlanks (fun hparen => hg hparen) ?_
    refine (Leaf.pointsInto_propertyName hc.pastBlanks).bind fun property c₁ _ hc₁ => ?_
    exact whenAccess_pointsInto hc₁ fun next c₂ hc₂ => hg hc₂

/-- A call goes on behind its arguments. -/
theorem call_pointsInto (hg : g.StaysIn text depth) {before : Links} {optional : Bool}
    (hc : c.IsIn text) : PointsInto text (g.call depth before optional c) := by
  refine PointsInto.bind (hg hc) fun arguments c₁ _ hc₁ => ?_
  rw [position_bind]
  exact whenAccess_pointsInto hc₁ fun access c₂ hc₂ => hg hc₂

/-- A missing parenthesis is a fault at the cursor. -/
theorem arguments_pointsInto (hg : g.StaysIn text depth) (hc : c.IsIn text) :
    PointsInto text (g.arguments depth c) := by
  refine PointsInto.bind (hg hc) fun arguments c₁ _ hc₁ => ?_
  exact pointsInto_expect hc₁ fun hclose => pointsInto_pure _ hclose

/-- A missing argument is a fault at its comma. -/
theorem argumentList_pointsInto (hg : g.StaysIn text depth) (hc : c.IsIn text) :
    PointsInto text (g.argumentList depth c) := by
  refine PointsInto.bind (hg hc) fun e? c₁ _ hc₁ => ?_
  rw [skipBlanks_bind, position_bind]
  refine pointsInto_takes hc₁.pastBlanks (fun hcomma => ?_) (pointsInto_pure _ hc₁.pastBlanks)
  cases e? with
  | none => exact pointsInto_failAt (hc₁.pastBlanks.hasPassed.of_reaches (reaches_skip _ 1))
  | some e => exact PointsInto.bind (hg hcomma) fun es c₂ _ hc₂ => pointsInto_pure _ hc₂

/-- A primary expression ends where its form does. -/
theorem primaryForm_pointsInto (hg : g.StaysIn text depth) (hc : c.IsIn text) :
    PointsInto text (g.primaryForm depth c) := by
  rw [primaryForm, position_bind, sees_bind, ite_run]
  split
  next => exact hg hc
  next =>
    refine pointsInto_takeUpdate ?_ fun operator => ?_
    · dsimp only
      rw [takeWord?_bind, word?]
      cases hword : Text.leadingWord c.rest with
      | cons x xs =>
        have hskip := hc.skip (x :: xs).length
        dsimp only
        rw [ite_run]
        split
        next =>
          -- `new` keeps the offset of its first letter.
          have hstart := hc.hasPassed.of_reaches (c.reaches_skip (x :: xs).length)
          exact PointsInto.bind (hg hstart) fun e c₁ _ hc₁ => pointsInto_pure _ hc₁
        next => exact pointsInto_pure _ hskip
      | nil =>
        dsimp only [List.length_nil]
        rw [skip_of_take_eq_nil rfl, sees_bind, ite_run]
        split
        next hnumber =>
          refine (Leaf.pointsInto_number hc hnumber).bind fun e c₁ _ hc₁ => ?_
          exact pointsInto_pure _ hc₁
        next =>
          refine pointsInto_takes hc (fun hbracket => ?_) (pointsInto_pure _ hc)
          exact PointsInto.bind (hg hbracket) fun e c₁ _ hc₁ => pointsInto_pure _ hc₁
    · exact PointsInto.bind (hg (hc.skip _)) fun e c₁ _ hc₁ => pointsInto_pure _ hc₁

/-- A callee that is a chain is a fault at the start of the `new`. -/
theorem construct_pointsInto (hsound : g.IsSound) (hg : g.StaysIn text depth) {start : Nat}
    (hstart : c.HasPassed text start) : PointsInto text (g.construct depth start c) := by
  rw [construct, skipBlanks_bind]
  refine PointsInto.bind (hg hstart.isIn.pastBlanks) fun primary? c₁ hprimary hc₁ => ?_
  refine pointsInto_require hc₁ fun primary _ => ?_
  refine PointsInto.bind (hg hc₁) fun callee c₂ hcallee hc₂ => ?_
  have hreaches := (hsound hprimary).reaches.trans (hsound hcallee).reaches
  dsimp only
  rw [ite_run]
  split
  next => exact pointsInto_failAt_bind (hstart.of_reaches (c.reaches_pastBlanks.trans hreaches))
  next => exact pointsInto_pure _ hc₂

/-- The links of a callee go on from one to the next. -/
theorem calleeLinks_pointsInto (hg : g.StaysIn text depth) {before : Links} (hc : c.IsIn text) :
    PointsInto text (g.calleeLinks depth before c) := by
  rw [calleeLinks, here_bind, skipBlanks_bind]
  refine pointsInto_takeAccess hc.pastBlanks ?_ fun access c₁ hc₁ => ?_
  · refine pointsInto_takes hc.pastBlanks (fun hparen => ?_) hc
    exact PointsInto.bind (hg hparen) fun arguments c₁ _ hc₁ => pointsInto_pure _ hc₁
  · exact PointsInto.bind (hg hc₁) fun between c₂ _ hc₂ => hg hc₂

/-- What is no place is a fault at its own start. -/
theorem updated_pointsInto (hsound : g.IsSound) (hg : g.StaysIn text depth)
    {operator : UpdateOperator} {start : Nat} (hc : c.IsIn text) :
    PointsInto text (g.updated depth operator start c) := by
  refine PointsInto.bind (hg hc) fun argument? c₁ hargument hc₁ => ?_
  refine pointsInto_require hc₁ fun argument hsome => ?_
  subst hsome
  have hnode : AreAt text c.position c₁.position [argument] := (hsound hargument).located hc
  dsimp only
  rw [ite_run]
  split
  next => exact pointsInto_failAt_bind (hasPassed_of_areAt hc₁ hnode)
  next => exact pointsInto_pure _ hc₁

/-- A missing bracket is a fault at the cursor. -/
theorem array_pointsInto (hg : g.StaysIn text depth) {start : Nat} (hc : c.IsIn text) :
    PointsInto text (g.array depth start c) := by
  refine PointsInto.bind (hg hc) fun elements c₁ _ hc₁ => ?_
  exact pointsInto_expect hc₁ fun hclose => pointsInto_pure _ hclose

/-- Elements go on behind their commas. -/
theorem elements_pointsInto (hg : g.StaysIn text depth) (hc : c.IsIn text) :
    PointsInto text (g.elements depth c) := by
  refine PointsInto.bind (hg hc) fun e? c₁ _ hc₁ => ?_
  rw [skipBlanks_bind]
  refine pointsInto_takes hc₁.pastBlanks (fun hcomma => ?_) (pointsInto_pure _ hc₁.pastBlanks)
  exact PointsInto.bind (hg hcomma) fun es c₂ _ hc₂ => pointsInto_pure _ hc₂

/-- One unfolding of a grammar that stays in the text stays in it, if what it nests does. -/
theorem step_pointsInto (hsound : g.IsSound) (hg : g.StaysIn text depth) {p : Production}
    (hnested : ∀ q : Production, q.IsGivenPassed text c → PointsInto text (g.nested depth q c))
    (hc : p.IsGivenPassed text c) : PointsInto text (g.step depth p c) := by
  cases p with
  | sequence isGrouped => exact sequence_pointsInto hsound hg hc
  | expressions isFirst => exact expressions_pointsInto hg hc
  | expression => exact hnested .conditional hc
  | conditional => exact conditional_pointsInto hg hc
  | operands least => exact hnested (.climb least) hc
  | climb least => exact climb_pointsInto hsound hg hc
  | infixes least left isBareUnary => exact infixes_pointsInto hsound hg hc
  | unary => exact hnested .unaryForm hc
  | unaryForm => exact unaryForm_pointsInto hg hc
  | token => exact token_pointsInto hsound hg hc
  | links before => exact links_pointsInto hg hc
  | primary => exact hnested .primaryForm hc
  | primaryForm => exact primaryForm_pointsInto hg hc
  | member before access => exact hg hc
  | accesses before access => exact accesses_pointsInto hg hc
  | call before optional => exact call_pointsInto hg hc
  | arguments => exact arguments_pointsInto hg hc
  | argumentList => exact argumentList_pointsInto hg hc
  | construct start => exact construct_pointsInto hsound hg hc
  | calleeLinks before => exact calleeLinks_pointsInto hg hc
  | updated operator start => exact updated_pointsInto hsound hg hc
  | array start => exact array_pointsInto hg hc
  | elements => exact elements_pointsInto hg hc

/-- The unfolded grammar stays in every text that it is read from. -/
theorem unfold_staysIn (text : List Char) (fuel : Nat) :
    ∀ depth, StaysIn (unfold fuel) text depth := by
  induction fuel with
  | zero =>
    intro depth p c hc
    exact pointsInto_fail hc.isIn
  | succ fuel ih =>
    intro depth p c hc
    refine step_pointsInto (unfold_isSound fuel) (ih depth) (fun q hq => ?_) hc
    cases depth with
    | zero => exact pointsInto_fail hc.isIn
    | succ below => exact ih below hq

end Grammar

/-! ## Whole texts -/

/-- Reading to the end of the text ends in the text. -/
theorem Scan.program_pointsInto {text : List Char} {c : Cursor} (depth : Nat) (hc : c.IsIn text) :
    PointsInto text (program depth c) := by
  rw [program, programOf, ahead_bind]
  refine PointsInto.bind (Grammar.unfold_staysIn text _ depth hc) fun e? c₁ _ hc₁ => ?_
  rw [skipBlanks_bind, ahead_bind]
  cases c₁.pastBlanks.rest with
  | nil =>
    cases e? with
    | none => exact pointsInto_fail hc₁.pastBlanks
    | some e => exact pointsInto_pure e hc₁.pastBlanks
  | cons y ys => cases e? <;> exact pointsInto_fail hc₁.pastBlanks

namespace Expr

/-- An error points between two characters of the text, not behind the place where the reading has
ended. Its line counts the line ends before that, and its column the characters behind the last one
of them. -/
theorem parseWithin_error {depth : Nat} {source : String} {error : SyntaxError}
    (h : parseWithin ⟨none, depth⟩ source = .error error) :
    ∃ fault c, program depth (.ofString source) = .error fault c ∧ error = fault.toError source ∧
      c.IsIn source.toList ∧ error.offset ≤ c.position ∧
      error.offset ≤ Text.utf8Size source.toList ∧
      ∃ before after, source.toList = before ++ after ∧ Text.utf8Size before = error.offset ∧
        error.location.line = 1 + before.count '\n' ∧
        error.location.column = 1 + (before.rtakeWhile (· != '\n')).length := by
  rw [parseWithin_eq_report] at h
  obtain ⟨fault, c, hrun, rfl⟩ := exists_fault_of_report h
  have hpoints := program_pointsInto depth (Cursor.isIn_ofString source)
  rw [hrun] at hpoints
  obtain ⟨hc, hboundary, hle⟩ := hpoints
  exact ⟨fault, c, hrun, rfl, hc, hle, hboundary.le, Text.Location.ofOffset_counts hboundary⟩

/-- Mixed operators are found out when the right operand has been read, and the error points at the
operator before it: on the second line, behind a character of two bytes. -/
theorem parseWithin_error_mixed : ∃ error,
    parseWithin ⟨none, 12⟩ "\n é ?? a || b" = .error error ∧
      error.offset = 5 ∧ error.location = ⟨2, 4⟩ ∧
    ∃ fault c, program 12 (.ofString "\n é ?? a || b") = .error fault c ∧
      error = fault.toError "\n é ?? a || b" ∧
      c.IsIn "\n é ?? a || b".toList ∧ error.offset ≤ c.position ∧
      error.offset ≤ Text.utf8Size "\n é ?? a || b".toList ∧
      ∃ before after, "\n é ?? a || b".toList = before ++ after ∧
        Text.utf8Size before = error.offset ∧
        error.location.line = 1 + before.count '\n' ∧
        error.location.column = 1 + (before.rtakeWhile (· != '\n')).length := by
  have hcheck : (parseWithin ⟨none, 12⟩ "\n é ?? a || b").map (fun _ => ()) =
      .error ⟨Cause.mixedNullish.message, 5, ⟨2, 4⟩⟩ := by
    decide +kernel
  cases hparse : parseWithin ⟨none, 12⟩ "\n é ?? a || b" with
  | ok e =>
    rw [hparse] at hcheck
    cases hcheck
  | error error =>
    rw [hparse] at hcheck
    cases hcheck
    exact ⟨_, rfl, rfl, rfl, parseWithin_error hparse⟩

end Expr

end Estree
