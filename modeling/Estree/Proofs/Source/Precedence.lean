import Estree.Proofs.Grammar.Climbing
import Estree.Proofs.Operator.Tree
import Estree.Proofs.Source.Operators
import Estree.Proofs.Source.Runs

/-!
# Precedence

Names with unary operators before them and infix operators between them make up a row. There is one
ordered tree over a row, whatever the parser does (`OperatorTree`), and the parser is to find it.

> `parseWithin_row`: a row is read as the one ordered tree over it, and it is only refused where a
> unary operator is raised to a power or `??` meets `&&` or `||` in this tree, with a message that
> says so.

The climbing knows no trees, only the least precedence of an operator that it goes on with. What
connects the two is a statement about the tree and any text after it:

> `isClimbed`: if the tree has no flaw and the operator after it binds too loosely to belong to it,
> its text is read as one left operand by every climbing that its root is not too loose for.

> `climb_fault`: if the tree has a flaw, the reading of its text ends in a fault about some flaw of
> it.

Both are shown along the tree. For the left operand, what comes after it is the operator at the root
(`IsAhead.leftOperand`), which goes on since the tree is ordered; the right operand is climbed from
the precedence of that operator on, and what follows the whole tree binds too loosely for it as well
(`IsAhead.rightOperand`). Which one of several flaws is found first is left open. There are levels
enough for all operators of the row, since each has four per byte of the text (`exists_levels`).
-/

open Estree.Expr

namespace Estree

open Grammar Token Source

/-! ## Rows of operands -/

namespace Source

/-- Tokens with a space between any two. -/
def spaced (tokens : List String) : List Char :=
  (" ".intercalate tokens).toList

theorem spaced_singleton (token : String) : spaced [token] = token.toList := by
  rw [spaced, String.intercalate_singleton]

/-- Two rows of tokens have a space in between. -/
theorem spaced_append {tokens others : List String} (h : tokens ≠ []) (hothers : others ≠ []) :
    spaced (tokens ++ others) = spaced tokens ++ ' ' :: spaced others := by
  rw [spaced, String.intercalate_append_of_ne_nil h hothers, String.toList_append,
    String.toList_append, List.append_assoc]
  rfl

theorem spaced_cons {token : String} {tokens : List String} (h : tokens ≠ []) :
    spaced (token :: tokens) = token.toList ++ ' ' :: spaced tokens := by
  have happend := spaced_append (List.cons_ne_nil token []) h
  rwa [spaced_singleton] at happend

end Source

/-- A name with any unary operators before it. -/
structure Operand where
  operators : List UnaryOperator
  name : String
  isFree : (Expr.identifier nowhere name).HasFreeName

namespace Operand

def tokens (x : Operand) : List String :=
  x.operators.map (·.text) ++ [x.name]

def expr (x : Operand) : Expr :=
  x.operators.foldr (Expr.unary nowhere · true ·) (.identifier nowhere x.name)

/-- There is the name at least. -/
theorem tokens_ne_nil (x : Operand) : x.tokens ≠ [] := by
  simp [tokens]

/-- A name is an operand, and so is one with unary operators before it. -/
theorem readsUnary_tokens {name : String} (h : (Expr.identifier nowhere name).HasFreeName)
    (operators : List UnaryOperator) :
    Starts (spaced (operators.map (·.text) ++ [name])) ∧
      ReadsUnary (operators.length + 2) (spaced (operators.map (·.text) ++ [name]))
        (operators.foldr (Expr.unary nowhere · true ·) (.identifier nowhere name))
        (!operators.isEmpty) := by
  induction operators with
  | nil =>
    have hword : UnaryOperator.ofText? name = none :=
      Option.not_isSome_iff_eq_none.1 (Bool.eq_false_iff.1 (isOperatorWord_of_hasFreeName h))
    have hrun : ReadsRun 1 name.toList (.identifier nowhere name) false false :=
      readsRun_identifier h.1 (isReserved_of_hasFreeName h)
    rw [List.map_nil, List.nil_append, spaced_singleton]
    exact ⟨isName_starts h.1,
      readsUnary_of_token (readsToken_of_run hrun rfl) (opensNoOperator_word h.1 hword)⟩
  | cons operator operators ih =>
    obtain ⟨hstarts, hreads⟩ := ih
    rw [List.map_cons, List.cons_append, spaced_cons (by simp)]
    exact ⟨(starts_unaryOperator operator).append, readsUnary_spaced hreads hstarts⟩

/-- The text of an operand begins with no blank. -/
theorem starts (x : Operand) : Starts (spaced x.tokens) :=
  (readsUnary_tokens x.isFree x.operators).1

theorem readsUnary (x : Operand) : ReadsUnary (x.operators.length + 2) (spaced x.tokens) x.expr
    (!x.operators.isEmpty) :=
  (readsUnary_tokens x.isFree x.operators).2

end Operand

/-- The tokens of operands with operators between them. -/
def rowTokens (first : Operand) (steps : List (InfixOperator × Operand)) : List String :=
  first.tokens ++ steps.flatMap fun step => step.1.text :: step.2.tokens

/-- Operands with operators between them, and single spaces between all their tokens. -/
def rowSource (first : Operand) (steps : List (InfixOperator × Operand)) : String :=
  " ".intercalate (rowTokens first steps)

/-! ## Trees over a row -/

namespace OperatorTree

section Flaws

variable {α : Type} {operator : InfixOperator} {left right child : OperatorTree α}

/-- The logical operator at the root. -/
def logical? (tree : OperatorTree α) : Option LogicalOperator :=
  tree.root?.bind InfixOperator.logical?

/-- `??` right above `||` or `&&`. -/
def MixesNullish (operator : InfixOperator) (left right : OperatorTree α) : Prop :=
  operator = .logical .nullish ∧ ∃ child ∈ [left, right],
    child.root? = some (.logical .or) ∨ child.root? = some (.logical .and)

/-- Below a logical operator of an ordered tree, what clashes with it is `||` or `&&` under `??`. -/
theorem clashes_iff {logical : LogicalOperator}
    (hle : ∀ inner ∈ child.root?, logical.precedence ≤ inner.precedence) :
    child.logical?.any logical.clashes = true ↔ logical = .nullish ∧
      (child.root? = some (.logical .or) ∨ child.root? = some (.logical .and)) := by
  cases child with
  | operand value => simp [logical?, root?]
  | joined inner left right =>
    have hle' : logical.precedence ≤ inner.precedence := hle inner rfl
    cases inner with
    | binary inner => simp [logical?, root?, InfixOperator.logical?]
    | logical inner => cases logical <;> cases inner <;> first
      | exact absurd hle' (by decide)
      | simp [logical?, root?, InfixOperator.logical?, LogicalOperator.clashes]

/-- In an ordered tree, the operators that the climbing remembers of its operands are those at their
roots, and they clash exactly if they mix. -/
theorem mixesNullish_iff (h : (joined operator left right).Ordered) (e e' : Expr) :
    MixesNullish operator left right ↔
      ¬operator.Allows ⟨e, left.logical?⟩ ⟨e', right.logical?⟩ := by
  cases operator with
  | binary operator =>
    have hallows : (InfixOperator.binary operator).Allows ⟨e, left.logical?⟩
        ⟨e', right.logical?⟩ := by
      rintro _ ⟨⟩
    simp [MixesNullish, hallows]
  | logical logical =>
    have hclashLeft := clashes_iff (h.le_left (Nat.le_refl logical.precedence))
    have hclashRight := clashes_iff (h.le_right (Nat.le_refl logical.precedence))
    have hallows : (InfixOperator.logical logical).Allows ⟨e, left.logical?⟩ ⟨e', right.logical?⟩ ↔
        left.logical?.any logical.clashes = false ∧ right.logical?.any logical.clashes = false := by
      constructor
      · exact fun h => h logical rfl
      · rintro h _ ⟨⟩
        exact h
    rw [hallows, not_and_or, Bool.not_eq_false, Bool.not_eq_false, hclashLeft, hclashRight,
      ← and_or_left]
    simp [MixesNullish]

end Flaws

variable {tree left right : OperatorTree Operand} {operator : InfixOperator} {rest : List Char}
  {depth : Nat} {c : Cursor}

/-- An operand with unary operators, raised to a power. -/
def RaisesUnary (operator : InfixOperator) (left _right : OperatorTree Operand) : Prop :=
  operator = .binary .exp ∧ ∃ x, left = operand x ∧ x.operators ≠ []

/-- Whether the tree is an operand with unary operators. -/
def isBareUnary : OperatorTree Operand → Bool
  | operand x => !x.operators.isEmpty
  | joined .. => false

/-- Only the root of the left operand matters for a power. -/
theorem raisesUnary_iff :
    RaisesUnary operator left right ↔ left.isBareUnary = true ∧ operator = .binary .exp := by
  rw [RaisesUnary, and_comm]
  refine and_congr_left fun _ => ?_
  cases left with
  | operand x => simp [isBareUnary]
  | joined => simp [isBareUnary]

/-- The tree has neither flaw. -/
structure IsSound (tree : OperatorTree Operand) : Prop where
  raises : ¬tree.HasNode RaisesUnary
  mixes : ¬tree.HasNode MixesNullish

/-- The cause is a flaw of the tree. -/
def IsFlaw (tree : OperatorTree Operand) (cause : Cause) : Prop :=
  cause = .unaryBeforeExponent ∧ tree.HasNode RaisesUnary ∨
    cause = .mixedNullish ∧ tree.HasNode MixesNullish

theorem IsSound.leftOperand (h : (joined operator left right).IsSound) : left.IsSound :=
  ⟨fun hraises => h.raises (.inr (.inl hraises)), fun hmixes => h.mixes (.inr (.inl hmixes))⟩

theorem IsSound.rightOperand (h : (joined operator left right).IsSound) : right.IsSound :=
  ⟨fun hraises => h.raises (.inr (.inr hraises)), fun hmixes => h.mixes (.inr (.inr hmixes))⟩

/-- A tree is sound if its operands are and there is no flaw at the root. -/
theorem IsSound.joined (hleft : left.IsSound) (hright : right.IsSound)
    (hraises : ¬RaisesUnary operator left right) (hmixes : ¬MixesNullish operator left right) :
    (OperatorTree.joined operator left right).IsSound where
  raises := by
    rintro (h | h | h)
    · exact hraises h
    · exact hleft.raises h
    · exact hright.raises h
  mixes := by
    rintro (h | h | h)
    · exact hmixes h
    · exact hleft.mixes h
    · exact hright.mixes h

/-- A flaw of the left operand is one of the tree. -/
theorem IsFlaw.ofLeft {cause : Cause} (h : left.IsFlaw cause) :
    (joined operator left right).IsFlaw cause :=
  h.imp (fun h => ⟨h.1, .inr (.inl h.2)⟩) fun h => ⟨h.1, .inr (.inl h.2)⟩

/-- A flaw of the right operand is one of the tree. -/
theorem IsFlaw.ofRight {cause : Cause} (h : right.IsFlaw cause) :
    (joined operator left right).IsFlaw cause :=
  h.imp (fun h => ⟨h.1, .inr (.inr h.2)⟩) fun h => ⟨h.1, .inr (.inr h.2)⟩

/-! ## Texts of trees -/

/-- The tree that is read, with no places. -/
def expr : OperatorTree Operand → Expr
  | operand x => x.expr
  | joined operator left right => operator.join left.expr right.expr

def tokens (tree : OperatorTree Operand) : List String :=
  rowTokens tree.first tree.steps

def text (tree : OperatorTree Operand) : List Char :=
  spaced tree.tokens

theorem tokens_ne_nil (tree : OperatorTree Operand) : tree.tokens ≠ [] :=
  List.append_ne_nil_of_left_ne_nil tree.first.tokens_ne_nil _

theorem text_operand (x : Operand) : (operand x).text = spaced x.tokens := by
  rw [text, tokens, rowTokens, steps, List.flatMap_nil, List.append_nil, first]

/-- The text of a tree is that of its operands with the operator between them, as the writing of a
binary node has it. -/
theorem text_joined (operator : InfixOperator) (left right : OperatorTree Operand) :
    (joined operator left right).text = infixText operator left.text right.text := by
  have htokens : (joined operator left right).tokens =
      left.tokens ++ operator.text :: right.tokens := by
    simp [tokens, rowTokens, steps, first]
  rw [text, htokens, spaced_append left.tokens_ne_nil (List.cons_ne_nil _ _),
    spaced_cons right.tokens_ne_nil]
  rfl

/-- The text of a tree begins with no blank. -/
theorem starts_text (tree : OperatorTree Operand) : Starts tree.text := by
  induction tree with
  | operand x =>
    rw [text_operand]
    exact x.starts
  | joined operator left right ih _ =>
    rw [text_joined]
    exact ih.append

/-! ## Climbing -/

/-- The text of the tree is ahead, and what comes after it does not belong to its last operand. The
levels are enough for both. -/
structure IsAhead (tree : OperatorTree Operand) (depth : Nat) (c : Cursor) (rest : List Char) :
    Prop where
  rest_eq : c.pastBlanks.rest = tree.text ++ rest
  follows : Follows rest
  ends : ∀ inner ∈ tree.root?, ∀ next ∈ infixOperator? (rest.dropWhile Text.isBlank),
    next.precedence < inner.rightPrecedence
  depth_le : 4 * (tree.text.length + rest.length) + 2 ≤ depth

/-- The tree is read as the left operand of whatever comes after it, as long as the least precedence
leaves it whole. -/
def IsClimbed (tree : OperatorTree Operand) (depth : Nat) (c : Cursor) (rest : List Char) : Prop :=
  ∃ e c₁, e.SameAs tree.expr ∧ c₁.pastBlanks.rest = rest.dropWhile Text.isBlank ∧
    ∀ least, (∀ inner ∈ tree.root?, least ≤ inner.precedence) →
      entire depth (.climb least) c =
        afterOperand depth least ⟨e, tree.logical?⟩ tree.isBareUnary c₁

/-- The reading of the tree ends in a fault about one of its flaws. -/
def FailsToClimb (tree : OperatorTree Operand) (depth : Nat) (c : Cursor) : Prop :=
  ∀ least, (∀ inner ∈ tree.root?, least ≤ inner.precedence) →
    ∃ fault c₁, entire depth (.climb least) c = .error fault c₁ ∧ tree.IsFlaw fault.cause

/-- What comes after the left operand of a tree. -/
def afterLeft (operator : InfixOperator) (right : OperatorTree Operand) (rest : List Char) :
    List Char :=
  ' ' :: (operator.text.toList ++ ' ' :: (right.text ++ rest))

/-- What is ahead of a tree does not change as the climbing goes down into its left operand. -/
theorem length_afterLeft :
    left.text.length + (afterLeft operator right rest).length =
      (joined operator left right).text.length + rest.length := by
  simp only [text_joined, infixText, afterLeft, List.length_append, List.length_cons]
  omega

/-- The operator of a tree ends its left operand. -/
theorem IsAhead.leftOperand (h : (joined operator left right).IsAhead depth c rest)
    (hordered : (joined operator left right).Ordered) :
    left.IsAhead depth c (afterLeft operator right rest) where
  rest_eq := by
    rw [h.rest_eq, text_joined, infixText, afterLeft, List.append_assoc, List.cons_append,
      List.append_assoc, List.cons_append]
  follows := .operator
  ends inner hinner next hnext := by
    rw [afterLeft, dropWhile_operator, infixOperator?_text] at hnext
    obtain rfl := Option.some.inj hnext
    exact hordered.lt_rightPrecedence inner hinner
  depth_le := by
    rw [length_afterLeft]
    exact h.depth_le

/-- What ends a tree ends its right operand. -/
theorem IsAhead.rightOperand {c₁ : Cursor} (h : (joined operator left right).IsAhead depth c rest)
    (hordered : (joined operator left right).Ordered)
    (hc₁ : c₁.pastBlanks.rest = (afterLeft operator right rest).dropWhile Text.isBlank) :
    infixOperator? c₁.pastBlanks.rest = some operator ∧ ∃ below, depth = below + 1 ∧
      right.IsAhead below (c₁.pastBlanks.skip operator.text.length) rest := by
  rw [afterLeft, dropWhile_operator] at hc₁
  have hdepth := h.depth_le
  rw [← length_afterLeft, afterLeft] at hdepth
  simp only [List.length_cons, List.length_append] at hdepth
  refine ⟨by rw [hc₁, infixOperator?_text], depth - 1, by omega, ?_, h.follows, ?_, by omega⟩
  · exact right.starts_text.pastBlanks_rest_space (Cursor.skip_length_rest hc₁)
  · intro inner hinner next hnext
    calc next.precedence
        < operator.rightPrecedence := h.ends operator rfl next hnext
      _ ≤ inner.precedence := hordered.rightPrecedence_le inner hinner
      _ ≤ inner.rightPrecedence := inner.precedence_le_rightPrecedence

/-- A tree that nothing goes on with is all that is read as operands. -/
theorem IsClimbed.operands {least : Nat} (h : tree.IsClimbed depth c rest)
    (hleast : ∀ inner ∈ tree.root?, least ≤ inner.precedence)
    (hends : ∀ next ∈ infixOperator? (rest.dropWhile Text.isBlank), next.precedence < least) :
    ∃ e c', entire (depth + 1) (.operands least) c = .ok (some ⟨e, tree.logical?⟩) c' ∧
      e.SameAs tree.expr ∧ c'.pastBlanks.rest = rest.dropWhile Text.isBlank := by
  obtain ⟨e, c₁, hsame, hc₁, hclimb⟩ := h
  refine ⟨e, c₁.pastBlanks, ?_, hsame, pastBlanks_pastBlanks_rest hc₁⟩
  rw [entire_operands, hclimb least hleast]
  refine afterOperand_stops fun next hnext => ?_
  rw [hc₁] at hnext
  exact hends next hnext

/-- The right operand of a tree is read up to what ends the tree. -/
theorem IsClimbed.rightOperand {below : Nat} {c₂ : Cursor}
    (hright : right.IsClimbed below c₂ rest)
    (hordered : (joined operator left right).Ordered)
    (h : (joined operator left right).IsAhead depth c rest) :
    ∃ e c', entire (below + 1) (.operands operator.rightPrecedence) c₂ =
        .ok (some ⟨e, right.logical?⟩) c' ∧ e.SameAs right.expr ∧
          c'.pastBlanks.rest = rest.dropWhile Text.isBlank :=
  hright.operands hordered.rightPrecedence_le (h.ends operator rfl)

/-- Operands that are the same up to spans are joined to trees that are. -/
theorem join_sameAs {left' right' : Expr} (hleft : left'.SameAs left.expr)
    (hright : right'.SameAs right.expr) :
    (operator.join left' right').SameAs (joined operator left right).expr := by
  cases operator with
  | binary operator =>
    show SameAs (.binary _ operator left' right') (.binary _ operator left.expr right.expr)
    rw [SameAs, unplaced, unplaced, hleft, hright]
  | logical operator =>
    show SameAs (.logical _ operator left' right') (.logical _ operator left.expr right.expr)
    rw [SameAs, unplaced, unplaced, hleft, hright]

/-- An operand is read as such. -/
theorem isClimbed_operand {x : Operand} (h : (operand x).IsAhead depth c rest) :
    (operand x).IsClimbed depth c rest := by
  have hrest := h.rest_eq
  have hdepth := h.depth_le
  rw [text_operand] at hrest hdepth
  obtain ⟨hunary, e, c₁, hderives, hsame, hc₁⟩ :=
    x.readsUnary c.pastBlanks rest (pastBlanks_pastBlanks_rest hrest) h.follows
  have hread : entire depth .unary c.pastBlanks = .ok (some e) c₁ := by
    refine hderives.entire_eq_ok (Or.inr ?_)
    rw [hrest, List.length_append]
    exact hdepth
  refine ⟨e, c₁, hsame, hc₁, fun least _ => ?_⟩
  rw [entire_climb hread, hrest, hunary]
  rfl

/-- A tree without flaws is read as it is. -/
theorem isClimbed (hordered : tree.Ordered) (hsound : tree.IsSound)
    (h : tree.IsAhead depth c rest) : tree.IsClimbed depth c rest := by
  induction tree generalizing depth c rest with
  | operand x => exact isClimbed_operand h
  | joined operator left right ihLeft ihRight =>
    -- After the left operand the climbing is where the operator of the root goes on, and after the
    -- right one where whatever follows the tree does.
    obtain ⟨left', c₁, hsame, hc₁, hclimb⟩ :=
      ihLeft hordered.ofLeft hsound.leftOperand (h.leftOperand hordered)
    obtain ⟨hop, below, rfl, hahead⟩ := h.rightOperand hordered hc₁
    obtain ⟨right', c', hright, hsame', hc'⟩ :=
      (ihRight hordered.ofRight hsound.rightOperand hahead).rightOperand hordered h
    have hbare : ¬(left.isBareUnary = true ∧ operator = .binary .exp) := fun hbare =>
      hsound.raises (.inl (raisesUnary_iff.2 hbare))
    have hallows : operator.Allows ⟨left', left.logical?⟩ ⟨right', right.logical?⟩ := by
      by_contra hclash
      exact hsound.mixes (.inl ((mixesNullish_iff hordered left' right').2 hclash))
    refine ⟨operator.join left' right', c', join_sameAs hsame hsame', hc', fun least hleast => ?_⟩
    have hroot : least ≤ operator.precedence := hleast operator rfl
    rw [hclimb least (hordered.le_left hroot)]
    have hjoined := infixes_joined hop hroot hbare hright hallows
    rw [← entire_infixes] at hjoined
    exact afterOperand_eq hjoined

/-- After a left operand without flaws, the fault is about the power that it is raised to, about the
right operand or about what the two of them mix. -/
theorem infixes_fault {left' : Expr} {c₁ : Cursor} {least : Nat}
    (hordered : (joined operator left right).Ordered)
    (hflawed : ¬(joined operator left right).IsSound) (hleft : left.IsSound)
    (h : (joined operator left right).IsAhead depth c rest)
    (hc₁ : c₁.pastBlanks.rest = (afterLeft operator right rest).dropWhile Text.isBlank)
    (hleast : least ≤ operator.precedence)
    (hfails : ¬right.IsSound → ∀ {below : Nat} {c₂ : Cursor}, right.IsAhead below c₂ rest →
      right.FailsToClimb below c₂) :
    ∃ fault c₂, entire.infixes depth least ⟨left', left.logical?⟩ left.isBareUnary c₁ =
      .error fault c₂ ∧ (joined operator left right).IsFlaw fault.cause := by
  obtain ⟨hop, below, rfl, hahead⟩ := h.rightOperand hordered hc₁
  -- The checks come in this order: the power before the right operand, what is mixed after it.
  by_cases hbare : left.isBareUnary = true ∧ operator = .binary .exp
  · have hraises : RaisesUnary operator left right := raisesUnary_iff.2 hbare
    obtain ⟨hunary, rfl⟩ := hbare
    obtain ⟨offset, hfault⟩ := infixes_bareUnary hop hleast
    rw [hunary]
    exact ⟨_, _, hfault, .inl ⟨rfl, .inl hraises⟩⟩
  · by_cases hright : right.IsSound
    · obtain ⟨right', c', hoperands, -, -⟩ :=
        (isClimbed hordered.ofRight hright hahead).rightOperand hordered h
      have hmixes : MixesNullish operator left right := by
        by_contra hmixes
        refine hflawed (hleft.joined hright (fun hraises => ?_) hmixes)
        exact hbare (raisesUnary_iff.1 hraises)
      have hclash := (mixesNullish_iff hordered left' right').1 hmixes
      obtain ⟨offset, hfault⟩ := infixes_clash hop hleast hoperands hclash
      exact ⟨_, _, hfault, .inr ⟨rfl, .inl hmixes⟩⟩
    · obtain ⟨fault, c₂, hfault, hflaw⟩ := hfails hright hahead operator.rightPrecedence
        hordered.rightPrecedence_le
      rw [← entire_operands] at hfault
      exact ⟨fault, c₂, infixes_rightFault hop hleast hbare hfault, hflaw.ofRight⟩

/-- A tree with flaws is not read, and the fault is about one of them. -/
theorem climb_fault (hordered : tree.Ordered) (hflawed : ¬tree.IsSound)
    (h : tree.IsAhead depth c rest) : tree.FailsToClimb depth c := by
  induction tree generalizing depth c rest with
  | operand x => exact absurd ⟨id, id⟩ hflawed
  | joined operator left right ihLeft ihRight =>
    intro least hleast
    have hroot : least ≤ operator.precedence := hleast operator rfl
    by_cases hleft : left.IsSound
    · obtain ⟨left', c₁, -, hc₁, hclimb⟩ :=
        isClimbed hordered.ofLeft hleft (h.leftOperand hordered)
      obtain ⟨fault, c₂, hfault, hflaw⟩ :=
        infixes_fault hordered hflawed hleft h hc₁ hroot fun hright _ _ hahead =>
          ihRight hordered.ofRight hright hahead
      rw [hclimb least (hordered.le_left hroot)]
      exact ⟨fault, c₂, afterOperand_fault hfault, hflaw⟩
    · obtain ⟨fault, c₁, hfault, hflaw⟩ :=
        ihLeft hordered.ofLeft hleft (h.leftOperand hordered) least (hordered.le_left hroot)
      exact ⟨fault, c₁, hfault, hflaw.ofLeft⟩

/-- There is no operator at the end of the text. -/
theorem infixOperator?_nil : infixOperator? [] = none :=
  FollowsExpression.nil.infixOperator?_eq_none

/-- The source of a row is the text of each tree over it. -/
theorem isAhead_source (tree : OperatorTree Operand)
    (hdepth : 4 * (rowSource tree.first tree.steps).toList.length + 2 ≤ depth) :
    tree.IsAhead depth (Cursor.ofString (rowSource tree.first tree.steps)).pastBlanks [] where
  rest_eq := by
    have hrest : (Cursor.ofString (rowSource tree.first tree.steps)).rest = tree.text ++ [] :=
      (List.append_nil _).symm
    exact pastBlanks_pastBlanks_rest (tree.starts_text.pastBlanks_rest hrest)
  follows := .nil
  ends inner _ next hnext := by
    rw [List.dropWhile_nil, infixOperator?_nil] at hnext
    cases hnext
  depth_le := hdepth

end OperatorTree

/-! ## Whole rows -/

namespace Expr

variable {limits : Limits} {tree : OperatorTree Operand}

/-- Two levels are opened before the first operand; what is left is enough for the operands. -/
theorem exists_levels {source : String} {maxDepth : Nat}
    (h : 4 * (Text.utf8Size source.toList + 1) ≤ maxDepth) :
    ∃ depth, maxDepth = depth + 1 + 1 ∧ 4 * source.toList.length + 2 ≤ depth := by
  have hbytes : source.toList.length ≤ Text.utf8Size source.toList := Text.length_le_utf8Size _
  exact ⟨maxDepth - 2, by omega, by omega⟩

/-- The row of an ordered tree without flaws is read as the tree. -/
theorem parseWithin_tree_ok (hordered : tree.Ordered) (hsound : tree.IsSound)
    (hlength : limits.exceeded? (rowSource tree.first tree.steps) = none)
    (hdepth : 4 * (Text.utf8Size (rowSource tree.first tree.steps).toList + 1) ≤ limits.maxDepth) :
    ∃ e, parseWithin limits (rowSource tree.first tree.steps) = .ok e ∧ e.SameAs tree.expr := by
  obtain ⟨depth, hmax, hdepth⟩ := exists_levels hdepth
  have hpositive : ∀ inner ∈ tree.root?, 1 ≤ inner.precedence := fun inner _ =>
    inner.precedence_pos
  obtain ⟨e, c', hoperands, hsame, hc'⟩ :=
    (OperatorTree.isClimbed hordered hsound (tree.isAhead_source hdepth)).operands hpositive
      (by simp [OperatorTree.infixOperator?_nil])
  have hend : c'.pastBlanks.rest = [] := hc'
  have hsequence := entire_sequence_eq_ok hoperands hend
  have hprogram := Scan.programBy_eq_ok hsequence
    (by rw [Cursor.pastBlanks_pastBlanks, Cursor.pastBlanks_pastBlanks, hend])
  refine ⟨e, ?_, hsame⟩
  rw [parseWithin_eq_parseBy readsByRule_entire, parseBy, hlength, hmax, hprogram]
  rfl

/-- The row of an ordered tree with a flaw is refused with a message about one of its flaws. -/
theorem parseWithin_tree_error (hordered : tree.Ordered) (hflawed : ¬tree.IsSound)
    (hlength : limits.exceeded? (rowSource tree.first tree.steps) = none)
    (hdepth : 4 * (Text.utf8Size (rowSource tree.first tree.steps).toList + 1) ≤ limits.maxDepth) :
    ∃ error cause, parseWithin limits (rowSource tree.first tree.steps) = .error error ∧
      error.message = cause.message ∧ tree.IsFlaw cause := by
  obtain ⟨depth, hmax, hdepth⟩ := exists_levels hdepth
  have hpositive : ∀ inner ∈ tree.root?, 1 ≤ inner.precedence := fun inner _ =>
    inner.precedence_pos
  obtain ⟨fault, c', hfault, hflaw⟩ :=
    OperatorTree.climb_fault hordered hflawed (tree.isAhead_source hdepth) 1 hpositive
  rw [← entire_operands] at hfault
  have hprogram := Scan.programBy_eq_error (entire_sequence_eq_error hfault)
  exact ⟨_, fault.cause, parseWithin_eq_error hlength (hmax ▸ hprogram), rfl, hflaw⟩

/-- Some operand with unary operators is followed by `**`. -/
def HasUnaryPower (first : Operand) (steps : List (InfixOperator × Operand)) : Prop :=
  ∃ x ∈ OperatorTree.beforeOperators first steps, x.1.operators ≠ [] ∧ x.2 = .binary .exp

/-- Over operands with operators between them there is exactly one ordered tree. A row is read if no
operand with unary operators is followed by `**` and the tree has no `??` with a `||` or `&&` right
below it, and what is read is the tree; otherwise the message of the error is that of the one or the
other. -/
theorem parseWithin_row (first : Operand) (steps : List (InfixOperator × Operand))
    (hlength : limits.exceeded? (rowSource first steps) = none)
    (hdepth : 4 * (Text.utf8Size (rowSource first steps).toList + 1) ≤ limits.maxDepth) :
    ∃ tree : OperatorTree Operand,
      (∀ other : OperatorTree Operand,
        (other.Ordered ∧ other.first = first ∧ other.steps = steps) ↔ other = tree) ∧
      ((∃ e, parseWithin limits (rowSource first steps) = .ok e) ↔
        ¬HasUnaryPower first steps ∧ ¬tree.HasNode OperatorTree.MixesNullish) ∧
      (∀ e, parseWithin limits (rowSource first steps) = .ok e → e.SameAs tree.expr) ∧
      ∀ error, parseWithin limits (rowSource first steps) = .error error →
        (error.message = Cause.unaryBeforeExponent.message ∧ HasUnaryPower first steps) ∨
          (error.message = Cause.mixedNullish.message ∧
            tree.HasNode OperatorTree.MixesNullish) := by
  obtain ⟨tree, hunique⟩ := OperatorTree.existsUnique_ordered first steps
  obtain ⟨hordered, rfl, rfl⟩ := (hunique tree).2 rfl
  have hpower : tree.HasNode OperatorTree.RaisesUnary ↔ HasUnaryPower tree.first tree.steps :=
    hordered.hasNode_exp_iff (·.operators ≠ [])
  refine ⟨tree, hunique, ?_⟩
  by_cases hsound : tree.IsSound
  · obtain ⟨e, hparse, hsame⟩ := parseWithin_tree_ok hordered hsound hlength hdepth
    rw [hparse]
    refine ⟨⟨fun _ => ⟨fun h => hsound.raises (hpower.2 h), hsound.mixes⟩, fun _ => ⟨e, rfl⟩⟩, ?_,
      nofun⟩
    rintro _ ⟨⟩
    exact hsame
  · obtain ⟨error, cause, hparse, hmessage, hflaw⟩ :=
      parseWithin_tree_error hordered hsound hlength hdepth
    rw [hparse]
    refine ⟨⟨nofun, fun h => absurd ⟨fun hraises => h.1 (hpower.1 hraises), h.2⟩ hsound⟩, nofun, ?_⟩
    rintro _ ⟨⟩
    rcases hflaw with ⟨rfl, hraises⟩ | ⟨rfl, hmixes⟩
    · exact Or.inl ⟨hmessage, hpower.1 hraises⟩
    · exact Or.inr ⟨hmessage, hmixes⟩

/-- A sum of an operand with a unary operator and a power. -/
theorem parseWithin_row_sum :
    let a : Operand := ⟨[.minus], "a", ⟨'a', [], rfl, rfl, List.forall_mem_nil _⟩, by decide⟩
    let b : Operand := ⟨[], "b", ⟨'b', [], rfl, rfl, List.forall_mem_nil _⟩, by decide⟩
    let tree : OperatorTree Operand :=
      .joined (.binary .add) (.operand a) (.joined (.binary .exp) (.operand b) (.operand b))
    Limits.exceeded? ⟨none, 52⟩ "- a + b ** b" = none ∧
      4 * (Text.utf8Size "- a + b ** b".toList + 1) ≤ 52 ∧
        ∃ e, parseWithin ⟨none, 52⟩ "- a + b ** b" = .ok e ∧ e.SameAs tree.expr := by
  intro a b tree
  have hsource : rowSource tree.first tree.steps = "- a + b ** b" := by decide
  obtain ⟨other, hunique, hread, hsame, -⟩ :=
    parseWithin_row tree.first tree.steps
      (show Limits.exceeded? ⟨none, 52⟩ _ = none from rfl) (by rw [hsource]; decide)
  obtain rfl : tree = other := (hunique tree).1 ⟨by decide, rfl, rfl⟩
  rw [hsource] at hread hsame
  have hpower : ¬HasUnaryPower tree.first tree.steps := by
    simp [HasUnaryPower, tree, OperatorTree.first, OperatorTree.steps,
      OperatorTree.beforeOperators, b]
  have hmixes : ¬tree.HasNode OperatorTree.MixesNullish := by
    simp [tree, OperatorTree.HasNode, OperatorTree.MixesNullish]
  obtain ⟨e, hparse⟩ := hread.2 ⟨hpower, hmixes⟩
  exact ⟨rfl, by decide, e, hparse, hsame e hparse⟩

end Expr

end Estree
