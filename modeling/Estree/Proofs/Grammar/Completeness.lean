import Mathlib.Data.Nat.Basic
import Mathlib.Order.Basic
import Estree.Proofs.Grammar.Derivation
import Estree.Proofs.Grammar.Token

/-!
# Whatever can be derived is read

`Derives.unfold_eq_ok`: a derivation is followed by the unfolded grammar, if it has fuel and levels
enough. How much is enough follows from the text: between two characters that are taken, only so
many productions are opened one inside the other, and only four of them open a level. `rank` and
`levels` count what a production may open before the next character is taken.

> `Affords fuel depth used p c`: there is enough to read a production. The fuel is sixteen times the
> length of what is left and one rank for the production. The levels are as many as the derivation
> has used, or four for each character left and those of the production.
> `Affords.opened`: a production of lower rank can be afforded at the same place.
> `Affords.later`: any production can be afforded further on, as a character less pays for all
> ranks.
> `Affords.nested`: a production one level further down can be afforded with a level less.

So the theorem is an induction on derivations in which each case runs its production once (`…_run`),
with the parts read as the induction says, and pays for each part by one of the three.

The lemmas in between run productions over a grammar of which nothing is known but how it reads the
parts. They are used wherever a text is shown to be read.
-/

namespace Estree

/-! ## The text grows shorter -/

/-- Every character has at least one byte. -/
theorem Text.length_le_utf8Size (cs : List Char) : cs.length ≤ Text.utf8Size cs := by
  induction cs with
  | nil => exact Nat.zero_le _
  | cons c cs ih =>
    have hpos := c.utf8Size_pos
    rw [List.length_cons, Text.utf8Size_cons]
    omega

namespace Cursor

/-- As many characters less are left. -/
theorem length_skip (c : Cursor) (n : Nat) : (c.skip n).rest.length = c.rest.length - n :=
  List.length_drop

/-- Skipping blanks leaves no more than there was. -/
theorem length_skipBlanks_le (c : Cursor) (lineEnds : Bool) :
    (c.skipBlanks lineEnds).rest.length ≤ c.rest.length :=
  (List.dropWhile_sublist _).length_le

/-- Nor does passing them. -/
theorem length_pastBlanks_le (c : Cursor) : c.pastBlanks.rest.length ≤ c.rest.length :=
  c.length_skipBlanks_le true

/-- Further on, no more is left. -/
theorem Reaches.length_le {c c' : Cursor} (h : c.Reaches c') :
    c'.rest.length ≤ c.rest.length := by
  obtain ⟨n, rfl⟩ := h
  rw [length_skip]
  exact Nat.sub_le _ _

/-- Where a character stands, something is left. -/
theorem length_pos_of_head? {c : Cursor} {x : Char} (h : c.rest.head? = some x) :
    0 < c.rest.length := by
  rw [rest_eq_cons_skip h]
  exact Nat.succ_pos _

/-- Skipping some characters of some leaves less. -/
theorem length_skip_of_pos {c : Cursor} {n : Nat} (h : 0 < c.rest.length ∧ 0 < n) :
    (c.skip n).rest.length < c.rest.length := by
  rw [length_skip]
  omega

/-- Blanks and what is taken after them make the text shorter. -/
theorem length_skip_lt {c : Cursor} {n : Nat} (h : 0 < c.pastBlanks.rest.length ∧ 0 < n) :
    (c.pastBlanks.skip n).rest.length < c.rest.length :=
  (length_skip_of_pos h).trans_le c.length_pastBlanks_le

/-- Behind a character less is left than before the blanks in front of it. -/
theorem length_skip_char_lt {c : Cursor} {x : Char} (h : c.pastBlanks.rest.head? = some x) :
    (c.pastBlanks.skip 1).rest.length < c.rest.length :=
  length_skip_lt ⟨length_pos_of_head? h, Nat.one_pos⟩

end Cursor

namespace Token

/-- Every operator that is found takes at least one character. -/
theorem access?_pos {text : List Char} {access : Access} (h : access? text = some access) :
    0 < text.length ∧ 0 < access.text.length := by
  refine ⟨List.length_pos_iff.2 ?_, ?_⟩
  · rintro rfl
    cases h
  · rcases access with ⟨_ | _, _ | _⟩ <;> decide

/-- An update is some text. -/
theorem updateOperator?_pos {text : List Char} {operator : UpdateOperator}
    (h : updateOperator? text = some operator) : 0 < text.length ∧ 0 < operator.text.length := by
  refine ⟨List.length_pos_iff.2 ?_, ?_⟩
  · rintro rfl
    cases h
  · cases operator <;> decide

/-- So is a unary operator. -/
theorem unaryOperator?_pos {text : List Char} {operator : UnaryOperator}
    (h : unaryOperator? text = some operator) : 0 < text.length ∧ 0 < operator.text.length := by
  refine ⟨List.length_pos_iff.2 ?_, ?_⟩
  · rintro rfl
    cases h
  · cases operator <;> decide

/-- So is an infix operator. -/
theorem infixOperator?_pos {text : List Char} {operator : InfixOperator}
    (h : infixOperator? text = some operator) : 0 < text.length ∧ 0 < operator.text.length := by
  refine ⟨List.length_pos_iff.2 ?_, ?_⟩
  · rintro rfl
    cases h
  · rcases operator with operator | operator <;> cases operator <;> decide

end Token

namespace Leaf

open Scan

/-- A property name is a word, and all of the word. -/
theorem propertyName_eq_ok {c c' : Cursor} {property : Expr} :
    propertyName c = .ok property c' ↔
      Text.leadingWord c.rest ≠ [] ∧
        property = .identifier ⟨c.position, c.position + Text.utf8Size (Text.leadingWord c.rest)⟩
          (String.ofList (Text.leadingWord c.rest)) ∧
        c' = c.skip (Text.leadingWord c.rest).length := by
  rw [propertyName, position_bind, takeWord?_bind, require_bind_eq_ok, Cursor.word?]
  cases hword : Text.leadingWord c.rest with
  | nil => simp
  | cons x xs =>
    constructor
    · rintro ⟨_, ⟨⟩, h⟩
      obtain ⟨rfl, rfl⟩ := pure_eq_ok.1 h
      exact ⟨List.cons_ne_nil _ _, rfl, rfl⟩
    · rintro ⟨-, rfl, rfl⟩
      exact ⟨_, rfl, rfl⟩

/-- A name of a property is passed. -/
theorem reaches_propertyName {c c' : Cursor} {property : Expr}
    (h : propertyName c = .ok property c') : c.Reaches c' := by
  obtain ⟨-, -, rfl⟩ := propertyName_eq_ok.1 h
  exact c.reaches_skip _

/-- A number is passed. -/
theorem reaches_number {c c' : Cursor} {e : Expr}
    (hstart : Pattern.numberStart.isAtStart c.rest = true) (h : number c = .ok e c') :
    c.Reaches c' := by
  obtain ⟨_, _, _, _, hpass, _⟩ := number_eq_ok hstart h
  exact hpass.reaches

end Leaf

namespace Grammar

open Scan

/-- No production goes back in the text. -/
theorem Derives.reaches {depth : Nat} {p : Production} {c c' : Cursor} {v : p.Yield}
    (h : Derives depth p c v c') : c.Reaches c' := by
  induction h <;>
    grind [Cursor.Reaches.trans, Cursor.Reaches.refl, Cursor.reaches_pastBlanks,
      Cursor.reaches_skip, Cursor.reaches_skipBlanks, → Leaf.reaches_propertyName,
      → Leaf.reaches_number]

/-- Behind what is read no more is left than before it. -/
theorem Derives.length_le {depth : Nat} {p : Production} {c c' : Cursor} {v : p.Yield}
    (h : Derives depth p c v c') : c'.rest.length ≤ c.rest.length :=
  h.reaches.length_le

/-! ## How much is enough -/

/-- How many productions may be opened, one inside the other, before the next character is taken. -/
def rank : Production → Nat
  | .sequence false => 11
  | .sequence true => 0
  | .expressions _ => 10
  | .expression => 9
  | .conditional => 8
  | .operands _ => 7
  | .climb _ => 6
  | .infixes .. => 1
  | .unary => 5
  | .unaryForm => 4
  | .token => 3
  | .links _ => 1
  | .primary => 2
  | .primaryForm => 1
  | .member .. => 13
  | .accesses .. => 12
  | .call .. => 12
  | .arguments => 11
  | .argumentList => 10
  | .construct _ => 3
  | .calleeLinks _ => 1
  | .updated .. => 4
  | .array _ => 11
  | .elements => 10

/-- How many levels may be opened before the next character is taken. -/
def levels : Production → Nat
  | .sequence false | .expressions _ | .expression => 4
  | .conditional | .operands _ => 3
  | .climb _ | .unary => 2
  | .unaryForm | .token | .primary | .construct _ | .updated .. => 1
  | .sequence true | .infixes .. | .links _ | .primaryForm | .calleeLinks _ => 0
  | .member .. | .accesses .. | .call .. | .arguments | .argumentList | .array _ | .elements => 4

/-- Enough fuel and levels to read a production from a cursor. Levels are enough if there are as
many as it is read with, or as many as can be opened on a text of this length. -/
structure Affords (fuel depth used : Nat) (p : Production) (c : Cursor) : Prop where
  fuel : 16 * c.rest.length + rank p < fuel
  depth : used ≤ depth ∨ 4 * c.rest.length + levels p ≤ depth

/-- At most thirteen productions are opened before a character is taken. -/
theorem rank_le (p : Production) : rank p ≤ 13 := by
  cases p with
  | sequence isGrouped => cases isGrouped <;> decide
  | _ => simp [rank]

/-- At most four levels are. -/
theorem levels_le (p : Production) : levels p ≤ 4 := by
  cases p with
  | sequence isGrouped => cases isGrouped <;> decide
  | _ => simp [levels]

namespace Affords

variable {fuel depth used : Nat} {p q : Production} {c c₁ : Cursor}

/-- There is fuel for one unfolding. -/
theorem exists_succ (h : Affords fuel depth used p c) : ∃ n, fuel = n + 1 := by
  have hfuel := h.fuel
  exact ⟨fuel - 1, by omega⟩

/-- Enough for a production is enough for the next one that it opens, if that ranks lower. -/
theorem opened (h : Affords (fuel + 1) depth used p c) (hlength : c₁.rest.length ≤ c.rest.length)
    (hrank : rank q < rank p := by simp [rank])
    (hlevels : levels q ≤ levels p := by simp [levels]) : Affords fuel depth used q c₁ := by
  have hfuel := h.fuel
  have hdepth := h.depth
  exact ⟨by omega, by omega⟩

/-- Enough for a production is enough for any other one once a character has been taken. -/
theorem later (h : Affords (fuel + 1) depth used p c) (hlength : c₁.rest.length < c.rest.length) :
    Affords fuel depth used q c₁ := by
  have hfuel := h.fuel
  have hdepth := h.depth
  have hrank := rank_le q
  have hlevels := levels_le q
  exact ⟨by omega, by omega⟩

/-- Enough for a production that goes one level down is enough there. -/
theorem nested (h : Affords (fuel + 1) depth (used + 1) p c)
    (hrank : rank q < rank p := by simp [rank])
    (hlevels : levels q < levels p := by simp [levels]) :
    ∃ below, depth = below + 1 ∧ Affords fuel below used q c := by
  have hfuel := h.fuel
  have hdepth := h.depth
  exact ⟨depth - 1, by omega, by omega, by omega⟩

end Affords

/-! ## One unfolding

Each of these puts the parts of a production together; the parts are read by any grammar. -/

section Unfolding

variable {g : Grammar} {depth : Nat} {c c₁ c₂ c' : Cursor}

/-- Expressions without parentheses around them. -/
theorem sequence_run {es : List Expr} (h : g depth (.expressions true) c.pastBlanks = .ok es c') :
    g.sequence depth false c = .ok (sequenceNode? none es) c' := by
  rw [sequence, skipBlanks_bind, position_bind]
  dsimp only
  rw [if_neg Bool.false_ne_true, bind_run h]
  rcases es with _ | ⟨first, _ | ⟨second, rest⟩⟩ <;> rfl

/-- Expressions in parentheses. -/
theorem grouped_run {es : List Expr} (hopen : c.pastBlanks.rest.head? = some '(')
    (h : g depth (.expressions true) (c.pastBlanks.skip 1) = .ok es c')
    (hclose : c'.rest.head? = some ')') (hne : es ≠ []) :
    g.sequence depth true c = .ok
      (sequenceNode? (some ⟨c.pastBlanks.position, (c'.skip 1).position⟩) es) (c'.skip 1) := by
  rw [sequence, skipBlanks_bind, position_bind]
  refine expect_char_bind_eq_ok.2 ⟨hopen, ?_⟩
  refine bind_eq_ok.2 ⟨es, c', h, expect_char_bind_eq_ok.2 ⟨hclose, ?_⟩⟩
  rcases es with _ | ⟨first, _ | ⟨second, rest⟩⟩
  · exact absurd rfl hne
  · rfl
  · rfl

/-- An expression without a comma behind it, or none. -/
theorem lastExpression_run {e? : Option Expr} {isFirst : Bool}
    (h : g depth .expression c = .ok e? c') (hfirst : e? = none → isFirst = true)
    (hcomma : c'.pastBlanks.rest.head? ≠ some ',') :
    g.expressions depth isFirst c = .ok e?.toList c'.pastBlanks := by
  have hnone : ¬(e?.isNone && !isFirst) = true := by
    cases e? with
    | none => simp [hfirst rfl]
    | some e => simp
  rw [expressions, bind_run h]
  dsimp only
  rw [if_neg hnone, skipBlanks_bind, position_bind, takes_char_bind, if_neg hcomma]
  rfl

/-- An expression with a comma behind it. -/
theorem moreExpressions_run {e : Expr} {es : List Expr} {isFirst : Bool}
    (he : g depth .expression c = .ok (some e) c₁) (hcomma : c₁.pastBlanks.rest.head? = some ',')
    (hes : g depth (.expressions false) (c₁.pastBlanks.skip 1) = .ok es c') :
    g.expressions depth isFirst c = .ok (e :: es) c' := by
  rw [expressions, bind_run he]
  show (do skipBlanks; _ : Scan (List Expr)) c₁ = _
  rw [skipBlanks_bind, position_bind, takes_char_bind, if_pos hcomma]
  exact bind_eq_ok.2 ⟨es, c', hes, rfl⟩

/-- Operands without a question mark behind them. -/
theorem unconditional_run {operands? : Option Climbed}
    (h : g depth (.operands 1) c = .ok operands? c')
    (hquestion : c'.pastBlanks.rest.head? ≠ some '?') :
    g.conditional depth c = .ok (operands?.map (·.expr)) c'.pastBlanks := by
  rw [conditional, bind_run h, skipBlanks_bind, position_bind, takes_char_bind, if_neg hquestion]
  rfl

/-- Operands with a question mark behind them. -/
theorem conditional_run {test : Climbed} {consequent alternate : Expr}
    (htest : g depth (.operands 1) c = .ok (some test) c₁)
    (hquestion : c₁.pastBlanks.rest.head? = some '?')
    (hconsequent : g depth .expression (c₁.pastBlanks.skip 1) = .ok (some consequent) c₂)
    (hcolon : c₂.pastBlanks.rest.head? = some ':')
    (halternate : g depth .expression (c₂.pastBlanks.skip 1) = .ok (some alternate) c') :
    g.conditional depth c = .ok (some
      (.conditional ⟨test.expr.span.start, alternate.span.stop⟩ test.expr consequent alternate))
      c' := by
  rw [conditional, bind_run htest, skipBlanks_bind, position_bind, takes_char_bind,
    if_pos hquestion]
  refine bind_eq_ok.2 ⟨_, _, hconsequent, require_bind_eq_ok.2 ⟨_, rfl, ?_⟩⟩
  refine expect_char_bind_eq_ok.2 ⟨hcolon, bind_eq_ok.2 ⟨_, _, halternate, ?_⟩⟩
  exact require_bind_eq_ok.2 ⟨_, rfl, rfl⟩

/-- No operand. -/
theorem noOperand_run {least : Nat} (h : g depth .unary c.pastBlanks = .ok none c') :
    g.climb depth least c = .ok none c' := by
  rw [climb, skipBlanks_bind, ahead_bind, bind_run h]
  rfl

/-- An operand with what goes on after it. -/
theorem climb_run {least : Nat} {left : Expr} {climbed : Climbed}
    (hleft : g depth .unary c.pastBlanks = .ok (some left) c₁)
    (h : g depth (.infixes least ⟨left, none⟩ (Token.unaryOperator? c.pastBlanks.rest).isSome) c₁ =
      .ok climbed c') :
    g.climb depth least c = .ok (some climbed) c' := by
  rw [climb, skipBlanks_bind, ahead_bind, bind_run hleft]
  exact bind_eq_ok.2 ⟨climbed, c', h, rfl⟩

/-- No operator goes on, or one that binds too loosely. -/
theorem noInfix_run {least : Nat} {left : Climbed} {isBareUnary : Bool}
    (h : ∀ operator ∈ Token.infixOperator? c.pastBlanks.rest, operator.precedence < least) :
    g.infixes depth least left isBareUnary c = .ok left c.pastBlanks := by
  rw [infixes, skipBlanks_bind, ahead_bind]
  cases hop : Token.infixOperator? c.pastBlanks.rest with
  | none => rfl
  | some operator =>
    dsimp only
    rw [if_pos (h operator hop)]
    rfl

/-- Once the right operand has been read, the reading goes on after what is joined. -/
theorem infixes_joined {least : Nat} {left right : Climbed} {isBareUnary : Bool}
    {operator : InfixOperator} (hop : Token.infixOperator? c.pastBlanks.rest = some operator)
    (hleast : least ≤ operator.precedence)
    (hbare : ¬(isBareUnary = true ∧ operator = .binary .exp))
    (hright : g depth (.operands operator.rightPrecedence)
      (c.pastBlanks.skip operator.text.length) = .ok (some right) c₁)
    (hallows : operator.Allows left right) :
    g.infixes depth least left isBareUnary c =
      g depth (.infixes least ⟨operator.join left.expr right.expr, operator.logical?⟩ false)
        c₁ := by
  have hbare' : ¬(isBareUnary && operator == .binary .exp) = true := by simpa using hbare
  rw [infixes, skipBlanks_bind, ahead_bind, hop]
  dsimp only
  rw [if_neg (Nat.not_lt.2 hleast), if_neg hbare', position_bind, skip_bind, bind_run hright]
  cases operator with
  | binary operator => rfl
  | logical logical =>
    obtain ⟨hleft, hright⟩ := hallows logical rfl
    show (if left.clashes logical || right.clashes logical then _ else _ : Scan Climbed) c₁ = _
    rw [hleft, hright, Bool.or_false, if_neg Bool.false_ne_true]
    rfl

/-- An operator goes on. -/
theorem joined_run {least : Nat} {left right climbed : Climbed} {isBareUnary : Bool}
    {operator : InfixOperator} (hop : Token.infixOperator? c.pastBlanks.rest = some operator)
    (hleast : least ≤ operator.precedence)
    (hbare : ¬(isBareUnary = true ∧ operator = .binary .exp))
    (hright : g depth (.operands operator.rightPrecedence)
      (c.pastBlanks.skip operator.text.length) = .ok (some right) c₁)
    (hallows : operator.Allows left right)
    (h : g depth (.infixes least ⟨operator.join left.expr right.expr, operator.logical?⟩ false) c₁ =
      .ok climbed c') :
    g.infixes depth least left isBareUnary c = .ok climbed c' :=
  (infixes_joined hop hleast hbare hright hallows).trans h

/-- A unary operator with its operand. -/
theorem unaryOperator_run {operator : UnaryOperator} {argument : Expr}
    (hop : Token.unaryOperator? c.pastBlanks.rest = some operator)
    (h : g depth .unary (c.pastBlanks.skip operator.text.length) = .ok (some argument) c') :
    g.unaryForm depth c = .ok
      (some (.unary ⟨c.pastBlanks.position, argument.span.stop⟩ operator true argument)) c' := by
  rw [unaryForm, skipBlanks_bind, ahead_bind, hop]
  dsimp only
  rw [position_bind, skip_bind, bind_run h]
  exact require_bind_eq_ok.2 ⟨argument, rfl, rfl⟩

/-- A token where no unary operator stands. -/
theorem noUnaryOperator_run {e? : Option Expr}
    (hop : Token.unaryOperator? c.pastBlanks.rest = none)
    (h : g depth .token c.pastBlanks = .ok e? c') : g.unaryForm depth c = .ok e? c' := by
  rw [unaryForm, skipBlanks_bind, ahead_bind, hop]
  exact h

/-- No token. -/
theorem noToken_run (h : g depth .primary c.pastBlanks = .ok none c') :
    g.token depth c = .ok none c' := by
  rw [token, skipBlanks_bind, bind_run h]
  rfl

/-- A run without an update behind it. -/
theorem token_run {primary : Expr} {run : Links}
    (hprimary : g depth .primary c.pastBlanks = .ok (some primary) c₁)
    (hrun : g depth (.links ⟨primary, false⟩) c₁ = .ok run c')
    (hop : Token.updateOperator? (c'.skipBlanks false).rest = none) :
    g.token depth c = .ok (some run.finish) (c'.skipBlanks false) := by
  rw [token, skipBlanks_bind, bind_run hprimary]
  dsimp only
  rw [bind_run hrun, skipInlineBlanks_bind, Token.takeUpdate?_bind, hop]
  rfl

/-- A run with an update behind it. -/
theorem trailingUpdate_run {primary : Expr} {run : Links} {operator : UpdateOperator}
    (hprimary : g depth .primary c.pastBlanks = .ok (some primary) c₁)
    (hrun : g depth (.links ⟨primary, false⟩) c₁ = .ok run c')
    (hop : Token.updateOperator? (c'.skipBlanks false).rest = some operator)
    (hplace : run.finish.isPlace = true) :
    g.token depth c = .ok
      (some (.update
        ⟨run.finish.span.start, ((c'.skipBlanks false).skip operator.text.length).position⟩
        operator false run.finish))
      ((c'.skipBlanks false).skip operator.text.length) := by
  rw [token, skipBlanks_bind, bind_run hprimary]
  dsimp only
  rw [bind_run hrun, skipInlineBlanks_bind, Token.takeUpdate?_bind, hop]
  dsimp only
  refine bind_eq_ok.2 ⟨_, _, ?_, rfl⟩
  rw [trailingUpdate, hplace, if_neg (by decide)]
  rfl

/-- No link goes on. -/
theorem noLink_run {before : Links} (haccess : Token.access? c.pastBlanks.rest = none)
    (hparen : c.pastBlanks.rest.head? ≠ some '(') : g.links depth before c = .ok before c := by
  rw [links, here_bind, skipBlanks_bind, Token.takeAccess?_bind, haccess]
  dsimp only [Option.elim]
  rw [takes_char_bind, if_neg hparen]
  rfl

/-- An access goes on with the run. -/
theorem linkAccess_run {before between after : Links} {access : Access}
    (haccess : Token.access? c.pastBlanks.rest = some access)
    (hbetween : g depth (.member before access) (c.pastBlanks.skip access.text.length) =
      .ok between c₁)
    (h : g depth (.links between) c₁ = .ok after c') : g.links depth before c = .ok after c' := by
  rw [links, here_bind, skipBlanks_bind, Token.takeAccess?_bind, haccess]
  exact bind_eq_ok.2 ⟨between, c₁, hbetween, h⟩

/-- A call goes on with the run. -/
theorem linkCall_run {before between after : Links}
    (haccess : Token.access? c.pastBlanks.rest = none)
    (hparen : c.pastBlanks.rest.head? = some '(')
    (hbetween : g depth (.call before false) (c.pastBlanks.skip 1) = .ok between c₁)
    (h : g depth (.links between) c₁ = .ok after c') : g.links depth before c = .ok after c' := by
  rw [links, here_bind, skipBlanks_bind, Token.takeAccess?_bind, haccess]
  dsimp only [Option.elim]
  rw [takes_char_bind, if_pos hparen]
  exact bind_eq_ok.2 ⟨between, c₁, hbetween, h⟩

/-- A run goes on with the access that begins here, or it ends. -/
theorem whenAccess_run {before after : Links} {follow : Access → Scan Links}
    (hnone : Token.access? c.pastBlanks.rest = none → after = before ∧ c' = c)
    (hsome : ∀ next, Token.access? c.pastBlanks.rest = some next →
      follow next (c.pastBlanks.skip next.text.length) = .ok after c') :
    whenAccess before follow c = .ok after c' := by
  rw [whenAccess, here_bind, skipBlanks_bind, Token.takeAccess?_bind]
  cases haccess : Token.access? c.pastBlanks.rest with
  | none =>
    obtain ⟨rfl, rfl⟩ := hnone haccess
    rfl
  | some next => exact hsome next haccess

/-- An access by an expression. -/
theorem computed_run {before after : Links} {access : Access} {property : Expr}
    (hcomputed : access.computed = true)
    (hproperty : g depth (.sequence false) c = .ok (some property) c₁)
    (hclose : c₁.pastBlanks.rest.head? = some ']')
    (h : whenAccess (memberLinks before property access (c₁.pastBlanks.skip 1).position)
      (fun next => g depth (.accesses
        (memberLinks before property access (c₁.pastBlanks.skip 1).position) next))
      (c₁.pastBlanks.skip 1) = .ok after c') :
    g.accesses depth before access c = .ok after c' := by
  rw [accesses]
  dsimp only
  rw [if_pos hcomputed, bind_run hproperty]
  refine require_bind_eq_ok.2 ⟨property, rfl, ?_⟩
  rw [skipBlanks_bind]
  exact expect_char_bind_eq_ok.2 ⟨hclose, h⟩

/-- An access by a name. -/
theorem named_run {before after : Links} {access : Access} {property : Expr}
    (hcomputed : access.computed = false) (hparen : c.pastBlanks.rest.head? ≠ some '(')
    (hproperty : Leaf.propertyName c.pastBlanks = .ok property c₁)
    (h : whenAccess (memberLinks before property access property.span.stop)
      (fun next => g depth (.accesses
        (memberLinks before property access property.span.stop) next)) c₁ = .ok after c') :
    g.accesses depth before access c = .ok after c' := by
  rw [accesses]
  dsimp only
  rw [if_neg (by simp [hcomputed]), skipBlanks_bind, takes_char_bind, if_neg hparen,
    if_neg Bool.false_ne_true, bind_run hproperty]
  exact h

/-- A call that takes over from an access. -/
theorem accessedCall_run {before after : Links} {access : Access}
    (hcomputed : access.computed = false) (hparen : c.pastBlanks.rest.head? = some '(')
    (h : g depth (.call ⟨before.node, before.hasOptional || access.optional⟩ access.optional)
      (c.pastBlanks.skip 1) = .ok after c') :
    g.accesses depth before access c = .ok after c' := by
  rw [accesses]
  dsimp only
  rw [if_neg (by simp [hcomputed]), skipBlanks_bind, takes_char_bind, if_pos hparen]
  exact h

/-- A call with what goes on after it. -/
theorem call_run {before after : Links} {optional : Bool} {arguments : List Expr}
    (harguments : g depth .arguments c = .ok arguments c₁)
    (h : whenAccess (callLinks before arguments optional c₁.position)
      (fun next => g depth (.member (callLinks before arguments optional c₁.position) next)) c₁ =
        .ok after c') :
    g.call depth before optional c = .ok after c' := by
  rw [call, bind_run harguments]
  exact h

/-- Arguments with the parenthesis that closes. -/
theorem arguments_run {es : List Expr} (h : g depth .argumentList c = .ok es c')
    (hclose : c'.rest.head? = some ')') : g.arguments depth c = .ok es (c'.skip 1) := by
  rw [arguments, bind_run h]
  exact expect_char_bind_eq_ok.2 ⟨hclose, rfl⟩

/-- An argument without a comma behind it, or none. -/
theorem lastArgument_run {e? : Option Expr} (h : g depth .expression c = .ok e? c')
    (hcomma : c'.pastBlanks.rest.head? ≠ some ',') :
    g.argumentList depth c = .ok e?.toList c'.pastBlanks := by
  rw [argumentList, bind_run h, skipBlanks_bind, position_bind, takes_char_bind, if_neg hcomma]
  rfl

/-- An argument with a comma behind it. -/
theorem moreArguments_run {e : Expr} {es : List Expr} (he : g depth .expression c = .ok (some e) c₁)
    (hcomma : c₁.pastBlanks.rest.head? = some ',')
    (hes : g depth .argumentList (c₁.pastBlanks.skip 1) = .ok es c') :
    g.argumentList depth c = .ok (e :: es) c' := by
  rw [argumentList, bind_run he, skipBlanks_bind, position_bind, takes_char_bind, if_pos hcomma]
  exact bind_eq_ok.2 ⟨es, c', hes, rfl⟩

/-- A parenthesis opens a group. -/
theorem primaryForm_group (hparen : c.rest.head? = some '(') :
    g.primaryForm depth c = g depth (.sequence true) c := by
  have hsees : c.sees (.char '(') = true := (Pattern.isAtStart_char ..).2 hparen
  rw [primaryForm, position_bind, sees_bind, if_pos hsees]

/-- No group is here. -/
theorem not_sees_paren {x : Char} (hx : c.rest.head? = some x) (hne : x ≠ '(') :
    ¬c.sees (.char '(') = true := by
  intro hsees
  rw [(Pattern.isAtStart_char ..).1 hsees] at hx
  exact hne (Option.some.inj hx).symm

/-- An update with its place. -/
theorem leadingUpdate_run {operator : UpdateOperator} {e : Expr}
    (hop : Token.updateOperator? c.rest = some operator)
    (h : g depth (.updated operator c.position) (c.skip operator.text.length) = .ok e c') :
    g.primaryForm depth c = .ok (some e) c' := by
  have hparen : ¬c.sees (.char '(') = true := by
    rcases Token.head?_of_updateOperator? hop with hhead | hhead
    · exact not_sees_paren hhead (by decide)
    · exact not_sees_paren hhead (by decide)
  rw [primaryForm, position_bind, sees_bind, if_neg hparen, Token.takeUpdate?_bind, hop]
  exact bind_eq_ok.2 ⟨e, c', h, rfl⟩

/-- Where a word begins, there is no group. -/
theorem not_sees_paren_of_leadingWord (hword : Text.leadingWord c.rest ≠ []) :
    ¬c.sees (.char '(') = true := by
  obtain ⟨x, hx, hstart⟩ := Text.leadingWord_ne_nil_iff.1 hword
  refine not_sees_paren hx ?_
  rintro rfl
  exact Text.not_mem_symbols hstart (by decide)

/-- The word at the cursor is found. -/
theorem word?_eq_some {word : List Char} (hword : Text.leadingWord c.rest = word)
    (hne : word ≠ []) : c.word? = some word := by
  rw [Cursor.word?, hword]
  cases word with
  | nil => exact absurd rfl hne
  | cons x xs => rfl

/-- The word `new` with its callee. -/
theorem new_run {e : Expr} (hword : Text.leadingWord c.rest = "new".toList)
    (h : g depth (.construct c.position) (c.skip "new".toList.length) = .ok e c') :
    g.primaryForm depth c = .ok (some e) c' := by
  have hne : "new".toList ≠ [] := by decide
  have hparen := not_sees_paren_of_leadingWord (hword ▸ hne)
  have hupdate := Token.updateOperator?_of_leadingWord (hword ▸ hne)
  rw [primaryForm, position_bind, sees_bind, if_neg hparen, Token.takeUpdate?_bind, hupdate]
  dsimp only [Option.elim]
  rw [takeWord?_bind, word?_eq_some hword hne, hword]
  dsimp only
  rw [if_pos rfl]
  exact bind_eq_ok.2 ⟨e, c', h, rfl⟩

/-- Any other word. -/
theorem word_run {word : List Char} (hword : Text.leadingWord c.rest = word) (hne : word ≠ [])
    (hnew : word ≠ "new".toList) :
    g.primaryForm depth c = .ok
      (some (Leaf.ofWord ⟨c.position, c.position + Text.utf8Size word⟩ (String.ofList word)))
      (c.skip word.length) := by
  have hparen := not_sees_paren_of_leadingWord (hword ▸ hne)
  have hupdate := Token.updateOperator?_of_leadingWord (hword ▸ hne)
  rw [primaryForm, position_bind, sees_bind, if_neg hparen, Token.takeUpdate?_bind, hupdate]
  dsimp only [Option.elim]
  rw [takeWord?_bind, word?_eq_some hword hne, hword]
  dsimp only
  rw [if_neg hnew]
  rfl

/-- Where no word begins and neither a parenthesis nor an update operator is, a number may start or
a bracket be. -/
theorem primaryForm_run {x : Char} (hx : c.rest.head? = some x) (hsymbol : x ∉ ['(', '+', '-'])
    (hword : Text.isIdentifierStart x = false) :
    g.primaryForm depth c =
      (do
        if ← sees .numberStart then
          return some (← Leaf.number)
        else if ← takes (.char '[') then
          return some (← g depth (.array c.position))
        else
          return none : Scan (Option Expr)) c := by
  simp only [List.mem_cons, List.not_mem_nil, or_false, not_or] at hsymbol
  obtain ⟨hparen, hupdateSymbol⟩ := hsymbol
  have hhead : ∀ {y : Char}, y ∈ c.rest.head? → x = y := fun hy =>
    Option.some.inj (hx.symm.trans hy)
  have hupdate : Token.updateOperator? c.rest = none :=
    Token.updateOperator?_eq_none fun y hy => hhead hy ▸ hupdateSymbol
  have hnil : Text.leadingWord c.rest = [] :=
    Text.leadingWord_eq_nil fun y hy => hhead hy ▸ hword
  rw [primaryForm, position_bind, sees_bind,
    if_neg (not_sees_paren hx hparen), Token.takeUpdate?_bind, hupdate]
  dsimp only [Option.elim]
  rw [takeWord?_bind, Cursor.word?, hnil]
  rfl

/-- A number. -/
theorem number_run {e : Expr} (hstart : Pattern.numberStart.isAtStart c.rest = true)
    (h : Leaf.number c = .ok e c') : g.primaryForm depth c = .ok (some e) c' := by
  obtain ⟨x, hx, hword, hsymbol⟩ := Text.exists_head?_of_numberStart hstart ['(', '+', '-'] rfl
  have hsees : c.sees .numberStart = true := hstart
  rw [primaryForm_run hx hsymbol hword, sees_bind, if_pos hsees]
  exact bind_eq_ok.2 ⟨e, c', h, rfl⟩

/-- An array with the bracket that opens. -/
theorem arrayLiteral_run {e : Expr} (hopen : c.rest.head? = some '[')
    (h : g depth (.array c.position) (c.skip 1) = .ok e c') :
    g.primaryForm depth c = .ok (some e) c' := by
  have hstart : ¬c.sees .numberStart = true := by
    refine Bool.eq_false_iff.1 (Text.numberStart_eq_false fun x hx => ?_)
    obtain rfl := Option.some.inj (hopen.symm.trans hx)
    decide
  rw [primaryForm_run hopen (by decide) (Text.isIdentifierStart_of_mem_symbols (by decide)),
    sees_bind, if_neg hstart, takes_char_bind, if_pos hopen]
  exact bind_eq_ok.2 ⟨e, c', h, rfl⟩

/-- Nothing that a primary expression begins with. -/
theorem noPrimary_run (hparen : c.rest.head? ≠ some '(')
    (hupdate : Token.updateOperator? c.rest = none) (hword : Text.leadingWord c.rest = [])
    (hstart : Pattern.numberStart.isAtStart c.rest = false) (hopen : c.rest.head? ≠ some '[') :
    g.primaryForm depth c = .ok none c := by
  have hsees : ¬c.sees (.char '(') = true := mt (Pattern.isAtStart_char ..).1 hparen
  have hnumber : ¬c.sees .numberStart = true := Bool.eq_false_iff.1 hstart
  rw [primaryForm, position_bind, sees_bind, if_neg hsees, Token.takeUpdate?_bind, hupdate]
  dsimp only [Option.elim]
  rw [takeWord?_bind, Cursor.word?, hword]
  dsimp only
  rw [List.length_nil, Cursor.skip_zero, sees_bind, if_neg hnumber, takes_char_bind, if_neg hopen]
  rfl

/-- A callee with its arguments, without an optional link. -/
theorem construct_run {start : Nat} {primary : Expr} {callee : Callee}
    (hprimary : g depth .primary c.pastBlanks = .ok (some primary) c₁)
    (hcallee : g depth (.calleeLinks ⟨primary, false⟩) c₁ = .ok callee c')
    (hoptional : callee.links.hasOptional = false) (hchain : callee.links.node.isChain = false) :
    g.construct depth start c = .ok
      (.new ⟨start, callee.stop?.getD callee.links.node.span.stop⟩ callee.links.node
        callee.arguments) c' := by
  rw [construct, skipBlanks_bind, bind_run hprimary]
  refine require_bind_eq_ok.2 ⟨primary, rfl, ?_⟩
  rw [bind_run hcallee]
  dsimp only
  rw [hoptional, hchain, Bool.or_false, if_neg Bool.false_ne_true]
  rfl

/-- A callee that ends without arguments. -/
theorem noCalleeLink_run {before : Links} (haccess : Token.access? c.pastBlanks.rest = none)
    (hparen : c.pastBlanks.rest.head? ≠ some '(') :
    g.calleeLinks depth before c = .ok ⟨before, [], none⟩ c := by
  rw [calleeLinks, here_bind, skipBlanks_bind, Token.takeAccess?_bind, haccess]
  dsimp only [Option.elim]
  rw [takes_char_bind, if_neg hparen]
  rfl

/-- A callee with one more access. -/
theorem calleeAccess_run {before between : Links} {access : Access} {callee : Callee}
    (haccess : Token.access? c.pastBlanks.rest = some access)
    (hbetween : g depth (.member before access) (c.pastBlanks.skip access.text.length) =
      .ok between c₁)
    (h : g depth (.calleeLinks between) c₁ = .ok callee c') :
    g.calleeLinks depth before c = .ok callee c' := by
  rw [calleeLinks, here_bind, skipBlanks_bind, Token.takeAccess?_bind, haccess]
  exact bind_eq_ok.2 ⟨between, c₁, hbetween, h⟩

/-- A callee that ends with its arguments. -/
theorem calleeArguments_run {before : Links} {es : List Expr}
    (haccess : Token.access? c.pastBlanks.rest = none)
    (hparen : c.pastBlanks.rest.head? = some '(')
    (h : g depth .arguments (c.pastBlanks.skip 1) = .ok es c') :
    g.calleeLinks depth before c = .ok ⟨before, es, some c'.position⟩ c' := by
  rw [calleeLinks, here_bind, skipBlanks_bind, Token.takeAccess?_bind, haccess]
  dsimp only [Option.elim]
  rw [takes_char_bind, if_pos hparen]
  exact bind_eq_ok.2 ⟨es, c', h, rfl⟩

/-- A place behind an update. -/
theorem updated_run {operator : UpdateOperator} {start : Nat} {argument : Expr}
    (h : g depth .token c = .ok (some argument) c') (hplace : argument.isPlace = true) :
    g.updated depth operator start c = .ok
      (.update ⟨start, argument.span.stop⟩ operator true argument) c' := by
  rw [updated, bind_run h]
  refine require_bind_eq_ok.2 ⟨argument, rfl, ?_⟩
  rw [hplace, if_neg (by decide)]
  rfl

/-- Elements with the bracket that closes. -/
theorem array_run {start : Nat} {elements : List (Option Expr)}
    (h : g depth .elements c = .ok elements c') (hclose : c'.rest.head? = some ']') :
    g.array depth start c = .ok (.array ⟨start, (c'.skip 1).position⟩ elements) (c'.skip 1) := by
  rw [array, bind_run h]
  exact expect_char_bind_eq_ok.2 ⟨hclose, rfl⟩

/-- An element without a comma behind it, or none. -/
theorem lastElement_run {e? : Option Expr} (h : g depth .expression c = .ok e? c')
    (hcomma : c'.pastBlanks.rest.head? ≠ some ',') :
    g.elements depth c = .ok (e?.toList.map some) c'.pastBlanks := by
  rw [elements, bind_run h, skipBlanks_bind, takes_char_bind, if_neg hcomma]
  rfl

/-- An element or a hole with a comma behind it. -/
theorem moreElements_run {e? : Option Expr} {elements : List (Option Expr)}
    (he : g depth .expression c = .ok e? c₁) (hcomma : c₁.pastBlanks.rest.head? = some ',')
    (h : g depth .elements (c₁.pastBlanks.skip 1) = .ok elements c') :
    g.elements depth c = .ok (e? :: elements) c' := by
  rw [Grammar.elements, bind_run he, skipBlanks_bind, takes_char_bind, if_pos hcomma]
  exact bind_eq_ok.2 ⟨elements, c', h, rfl⟩

end Unfolding

/-! ## All unfoldings -/

/-- A production one level down is read with one level less. -/
theorem nested_run {g : Grammar} {depth : Nat} {p : Production} {c c' : Cursor} {v : p.Yield}
    (h : g depth p c = .ok v c') : g.nested (depth + 1) p c = .ok v c' := h

/-- A derivation is followed by the unfolded grammar, if it has fuel and levels enough. -/
theorem Derives.unfold_eq_ok {used : Nat} {p : Production} {c c' : Cursor} {v : p.Yield}
    (h : Derives used p c v c') :
    ∀ {fuel depth : Nat}, Affords fuel depth used p c → unfold fuel depth p c = .ok v c' := by
  -- Every production takes one unit of fuel. Its first part is opened where it stands, or after a
  -- character has been taken; every other part comes after a character.
  induction h with (intro fuel depth haffords; obtain ⟨fuel, rfl⟩ := haffords.exists_succ)
  | ungrouped _ ih =>
    exact sequence_run (ih (haffords.opened (Cursor.length_pastBlanks_le _)))
  | grouped hopen _ hclose hne ih =>
    exact grouped_run hopen (ih (haffords.later (Cursor.length_skip_char_lt hopen))) hclose hne
  | lastExpression _ hfirst hcomma ih =>
    exact lastExpression_run (ih (haffords.opened le_rfl)) hfirst hcomma
  | moreExpressions he hcomma _ ihe ihes =>
    have hshorter := (Cursor.length_skip_char_lt hcomma).trans_le he.length_le
    exact moreExpressions_run (ihe (haffords.opened le_rfl)) hcomma (ihes (haffords.later hshorter))
  | expression _ ih =>
    obtain ⟨below, rfl, hbelow⟩ := haffords.nested (q := .conditional)
    exact nested_run (ih hbelow)
  | unconditional _ hquestion ih =>
    exact unconditional_run (ih (haffords.opened le_rfl)) hquestion
  | conditional htest hquestion hconsequent hcolon _ ihtest ihconsequent ihalternate =>
    have hshorter₁ := (Cursor.length_skip_char_lt hquestion).trans_le htest.length_le
    have hshorter₂ := (Cursor.length_skip_char_lt hcolon).trans_le hconsequent.length_le
    exact conditional_run (ihtest (haffords.opened le_rfl)) hquestion
      (ihconsequent (haffords.later hshorter₁)) hcolon
      (ihalternate (haffords.later (hshorter₂.trans hshorter₁)))
  | operands _ ih =>
    obtain ⟨below, rfl, hbelow⟩ := haffords.nested (q := .climb _)
    exact nested_run (ih hbelow)
  | noOperand _ ih =>
    exact noOperand_run (ih (haffords.opened (Cursor.length_pastBlanks_le _)))
  | @climb _ c _ _ _ _ _ hleft _ ihleft ih =>
    have hblanks := c.length_pastBlanks_le
    exact climb_run (ihleft (haffords.opened hblanks))
      (ih (haffords.opened (hleft.length_le.trans hblanks)))
  | noInfix hop =>
    exact noInfix_run hop
  | joined hop hleast hbare hright hallows _ ihright ih =>
    have hshorter := Cursor.length_skip_lt (Token.infixOperator?_pos hop)
    exact joined_run hop hleast hbare (ihright (haffords.later hshorter)) hallows
      (ih (haffords.later (hright.length_le.trans_lt hshorter)))
  | unary _ ih =>
    obtain ⟨below, rfl, hbelow⟩ := haffords.nested (q := .unaryForm)
    exact nested_run (ih hbelow)
  | unaryOperator hop _ ih =>
    exact unaryOperator_run hop
      (ih (haffords.later (Cursor.length_skip_lt (Token.unaryOperator?_pos hop))))
  | noUnaryOperator hop _ ih =>
    exact noUnaryOperator_run hop (ih (haffords.opened (Cursor.length_pastBlanks_le _)))
  | noToken _ ih =>
    exact noToken_run (ih (haffords.opened (Cursor.length_pastBlanks_le _)))
  | @token _ c _ _ _ _ hprimary _ hop ihprimary ihrun =>
    have hblanks := c.length_pastBlanks_le
    exact token_run (ihprimary (haffords.opened hblanks))
      (ihrun (haffords.opened (hprimary.length_le.trans hblanks))) hop
  | @trailingUpdate _ c _ _ _ _ _ hprimary _ hop hplace ihprimary ihrun =>
    have hblanks := c.length_pastBlanks_le
    exact trailingUpdate_run (ihprimary (haffords.opened hblanks))
      (ihrun (haffords.opened (hprimary.length_le.trans hblanks))) hop hplace
  | noLink haccess hparen =>
    exact noLink_run haccess hparen
  | linkAccess haccess hbetween _ ihbetween ih =>
    have hshorter := Cursor.length_skip_lt (Token.access?_pos haccess)
    exact linkAccess_run haccess (ihbetween (haffords.later hshorter))
      (ih (haffords.later (hbetween.length_le.trans_lt hshorter)))
  | linkCall haccess hparen hbetween _ ihbetween ih =>
    have hshorter := Cursor.length_skip_char_lt hparen
    exact linkCall_run haccess hparen (ihbetween (haffords.later hshorter))
      (ih (haffords.later (hbetween.length_le.trans_lt hshorter)))
  | member _ ih =>
    exact ih (haffords.opened le_rfl)
  | computedLast hcomputed _ hclose haccess ih =>
    -- After a property the loop asks for another access; each case knows whether there is one.
    refine computed_run hcomputed (ih (haffords.opened le_rfl)) hclose ?_
    exact whenAccess_run (fun _ => ⟨rfl, rfl⟩) (by simp [haccess])
  | computedNext hcomputed hproperty hclose haccess _ ihproperty ih =>
    refine computed_run hcomputed (ihproperty (haffords.opened le_rfl)) hclose ?_
    refine whenAccess_run (by simp [haccess]) fun next hnext => ?_
    obtain rfl := Option.some.inj (haccess.symm.trans hnext)
    have hshorter := (Cursor.length_skip_char_lt hclose).trans_le hproperty.length_le
    exact ih (haffords.later ((Cursor.length_skip_lt (Token.access?_pos haccess)).trans hshorter))
  | namedLast hcomputed hparen hproperty haccess =>
    refine named_run hcomputed hparen hproperty ?_
    exact whenAccess_run (fun _ => ⟨rfl, rfl⟩) (by simp [haccess])
  | namedNext hcomputed hparen hproperty haccess _ ih =>
    refine named_run hcomputed hparen hproperty ?_
    refine whenAccess_run (by simp [haccess]) fun next hnext => ?_
    obtain rfl := Option.some.inj (haccess.symm.trans hnext)
    have hlength := (Leaf.reaches_propertyName hproperty).length_le.trans
      (Cursor.length_pastBlanks_le _)
    exact ih (haffords.later
      ((Cursor.length_skip_lt (Token.access?_pos haccess)).trans_le hlength))
  | accessedCall hcomputed hparen _ ih =>
    exact accessedCall_run hcomputed hparen
      (ih (haffords.later (Cursor.length_skip_char_lt hparen)))
  | callLast _ haccess ih =>
    refine call_run (ih (haffords.opened le_rfl)) ?_
    exact whenAccess_run (fun _ => ⟨rfl, rfl⟩) (by simp [haccess])
  | callNext harguments haccess _ iharguments ih =>
    refine call_run (iharguments (haffords.opened le_rfl)) ?_
    refine whenAccess_run (by simp [haccess]) fun next hnext => ?_
    obtain rfl := Option.some.inj (haccess.symm.trans hnext)
    exact ih (haffords.later
      ((Cursor.length_skip_lt (Token.access?_pos haccess)).trans_le harguments.length_le))
  | arguments _ hclose ih =>
    exact arguments_run (ih (haffords.opened le_rfl)) hclose
  | lastArgument _ hcomma ih =>
    exact lastArgument_run (ih (haffords.opened le_rfl)) hcomma
  | moreArguments he hcomma _ ihe ihes =>
    have hshorter := (Cursor.length_skip_char_lt hcomma).trans_le he.length_le
    exact moreArguments_run (ihe (haffords.opened le_rfl)) hcomma (ihes (haffords.later hshorter))
  | primary _ ih =>
    obtain ⟨below, rfl, hbelow⟩ := haffords.nested (q := .primaryForm)
    exact nested_run (ih hbelow)
  | group hparen _ ih =>
    exact (primaryForm_group hparen).trans (ih (haffords.opened le_rfl))
  | leadingUpdate hop _ ih =>
    exact leadingUpdate_run hop
      (ih (haffords.later (Cursor.length_skip_of_pos (Token.updateOperator?_pos hop))))
  | @new _ c _ _ hword _ ih =>
    have hpos : 0 < c.rest.length := by
      refine List.length_pos_iff.2 fun hnil => ?_
      rw [hnil] at hword
      cases hword
    exact new_run hword (ih (haffords.later (Cursor.length_skip_of_pos ⟨hpos, by decide⟩)))
  | word hword hne hnew =>
    exact word_run hword hne hnew
  | number hstart h =>
    exact number_run hstart h
  | arrayLiteral hopen _ ih =>
    have hpos := Cursor.length_pos_of_head? hopen
    exact arrayLiteral_run hopen
      (ih (haffords.later (Cursor.length_skip_of_pos ⟨hpos, Nat.one_pos⟩)))
  | noPrimary hparen hupdate hword hstart hopen =>
    exact noPrimary_run hparen hupdate hword hstart hopen
  | @construct _ c _ _ _ _ _ hprimary _ hoptional hchain ihprimary ihcallee =>
    have hblanks := c.length_pastBlanks_le
    exact construct_run (ihprimary (haffords.opened hblanks))
      (ihcallee (haffords.opened (hprimary.length_le.trans hblanks))) hoptional hchain
  | noCalleeLink haccess hparen =>
    exact noCalleeLink_run haccess hparen
  | calleeAccess haccess hbetween _ ihbetween ih =>
    have hshorter := Cursor.length_skip_lt (Token.access?_pos haccess)
    exact calleeAccess_run haccess (ihbetween (haffords.later hshorter))
      (ih (haffords.later (hbetween.length_le.trans_lt hshorter)))
  | calleeArguments haccess hparen _ ih =>
    exact calleeArguments_run haccess hparen
      (ih (haffords.later (Cursor.length_skip_char_lt hparen)))
  | updated _ hplace ih =>
    exact updated_run (ih (haffords.opened le_rfl)) hplace
  | array _ hclose ih =>
    exact array_run (ih (haffords.opened le_rfl)) hclose
  | lastElement _ hcomma ih =>
    exact lastElement_run (ih (haffords.opened le_rfl)) hcomma
  | moreElements he hcomma _ ihe ih =>
    have hshorter := (Cursor.length_skip_char_lt hcomma).trans_le he.length_le
    exact moreElements_run (ihe (haffords.opened le_rfl)) hcomma (ih (haffords.later hshorter))

end Grammar

end Estree
