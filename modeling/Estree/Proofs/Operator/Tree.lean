import Estree.Operator

/-!
# Trees of operands

Operands in order, with an infix operator between any two of them, can be joined to a tree in many
ways. The precedences single out one of these trees, the one that is `Ordered`: an operator that
binds less tightly than another does not stand right below it, and of two that bind equally tightly
the first one stands below the second one, but for `**`, where it is the other way round.

> `OperatorTree.existsUnique_ordered`: there is exactly one such tree over any operands with any
> operators between them.

That there is one is shown by building it from left to right: the next operator takes as its left
operand as much of the right edge of the tree as it may (`grow`). That keeps the tree ordered
(`Ordered.grow`) and adds the step to its row (`steps_grow`).

That there is only one is the same construction run along any ordered tree: growing a tree by the
steps of the right operand does not touch what is left of it, because all operators there bind
tightly enough (`foldl_grow_joined`). So every ordered tree is the one that is built from its row
(`Ordered.ofSteps_eq`).
-/

namespace Estree

/-! ## Operators next to each other -/

namespace InfixOperator

variable {operator inner : InfixOperator}

/-- Whether the left operand may have this operator at its root, without parentheses. -/
def HoldsLeft (operator inner : InfixOperator) : Prop :=
  if operator = .binary .exp then operator.precedence < inner.precedence
  else operator.precedence ≤ inner.precedence

/-- Whether the right operand may have this operator at its root, without parentheses. -/
def HoldsRight (operator inner : InfixOperator) : Prop :=
  if operator = .binary .exp then operator.precedence ≤ inner.precedence
  else operator.precedence < inner.precedence

instance : Decidable (operator.HoldsLeft inner) :=
  inferInstanceAs (Decidable (if operator = .binary .exp then operator.precedence < inner.precedence
    else operator.precedence ≤ inner.precedence))

instance : Decidable (operator.HoldsRight inner) :=
  inferInstanceAs (Decidable (if operator = .binary .exp then operator.precedence ≤ inner.precedence
    else operator.precedence < inner.precedence))

theorem precedence_exp : (binary .exp).precedence = 12 := rfl

/-- No operator binds as tightly as `**`. -/
theorem precedence_lt_of_ne_exp (h : operator ≠ .binary .exp) : operator.precedence < 12 := by
  rcases operator with operator | operator
  · cases operator with
    | exp => exact absurd rfl h
    | _ => decide
  · cases operator <;> decide

theorem precedence_le (operator : InfixOperator) : operator.precedence ≤ 12 := by
  by_cases h : operator = .binary .exp
  · exact Nat.le_of_eq (congrArg precedence h)
  · exact Nat.le_of_lt (precedence_lt_of_ne_exp h)

theorem rightPrecedence_exp : (binary .exp).rightPrecedence = 12 := rfl

/-- A right operand binds more tightly, but for that of `**`. -/
theorem rightPrecedence_of_ne_exp (h : operator ≠ .binary .exp) :
    operator.rightPrecedence = operator.precedence + 1 := by
  have hleft : ¬operator.isRightAssociative = true := by
    simpa [isRightAssociative] using h
  rw [rightPrecedence, if_neg hleft]

theorem precedence_le_rightPrecedence (operator : InfixOperator) :
    operator.precedence ≤ operator.rightPrecedence := by
  by_cases h : operator = .binary .exp
  · subst h
    exact Nat.le_refl 12
  · rw [rightPrecedence_of_ne_exp h]
    exact Nat.le_succ _

/-- A left operand is complete before an operator that may hold it. -/
theorem holdsLeft_iff : operator.HoldsLeft inner ↔ operator.precedence < inner.rightPrecedence := by
  unfold HoldsLeft
  -- Only `**` demands more of its left operand than its precedence, and less of its right one.
  have hle := inner.precedence_le
  by_cases hinner : inner = .binary .exp
  · subst hinner
    rw [precedence_exp, rightPrecedence_exp]
    by_cases h : operator = .binary .exp
    · rw [if_pos h, h, precedence_exp]
    · have hlt := precedence_lt_of_ne_exp h
      rw [if_neg h]
      omega
  · have hlt := precedence_lt_of_ne_exp hinner
    rw [rightPrecedence_of_ne_exp hinner]
    by_cases h : operator = .binary .exp
    · rw [if_pos h, h, precedence_exp]
      omega
    · rw [if_neg h]
      omega

/-- A right operand is what binds at least as tightly as its place demands. -/
theorem holdsRight_iff :
    operator.HoldsRight inner ↔ operator.rightPrecedence ≤ inner.precedence := by
  unfold HoldsRight
  by_cases h : operator = .binary .exp
  · rw [if_pos h, h, precedence_exp, rightPrecedence_exp]
  · rw [if_neg h, rightPrecedence_of_ne_exp h]
    exact Iff.rfl

/-- What a left operand may have at its root does not bind less tightly. -/
theorem HoldsLeft.le (h : operator.HoldsLeft inner) : operator.precedence ≤ inner.precedence := by
  unfold HoldsLeft at h
  split at h
  · exact Nat.le_of_lt h
  · exact h

/-- Nor does what a right operand may have. -/
theorem HoldsRight.le (h : operator.HoldsRight inner) : operator.precedence ≤ inner.precedence :=
  Nat.le_trans operator.precedence_le_rightPrecedence (holdsRight_iff.1 h)

/-- Nothing that is joined can be raised to a power without parentheses. -/
theorem not_holdsLeft_exp : ¬(binary .exp).HoldsLeft inner := by
  intro h
  rw [HoldsLeft, if_pos rfl, precedence_exp] at h
  exact absurd h (Nat.not_lt.2 inner.precedence_le)

end InfixOperator

/-! ## Trees and rows -/

/-- Operands joined by infix operators. -/
inductive OperatorTree (α : Type) where
  | operand (value : α)
  | joined (operator : InfixOperator) (left right : OperatorTree α)

namespace OperatorTree

variable {α : Type} {tree left right : OperatorTree α} {operator : InfixOperator} {least : Nat}

/-- The operator at the root. -/
def root? : OperatorTree α → Option InfixOperator
  | operand _ => none
  | joined operator _ _ => some operator

/-- The operand that comes first. -/
def first : OperatorTree α → α
  | operand value => value
  | joined _ left _ => left.first

/-- The operand that comes last. -/
def last : OperatorTree α → α
  | operand value => value
  | joined _ _ right => right.last

/-- The operators in order, each with the operand that comes after it. -/
def steps : OperatorTree α → List (InfixOperator × α)
  | operand _ => []
  | joined operator left right => left.steps ++ (operator, right.first) :: right.steps

/-- Every operator may hold what it joins without parentheses. -/
def Ordered : OperatorTree α → Prop
  | operand _ => True
  | joined operator left right =>
    (∀ inner ∈ left.root?, operator.HoldsLeft inner) ∧
      (∀ inner ∈ right.root?, operator.HoldsRight inner) ∧ left.Ordered ∧ right.Ordered

instance decidableOrdered : (tree : OperatorTree α) → Decidable tree.Ordered
  | operand _ => isTrue trivial
  | joined operator left right =>
    have := left.decidableOrdered
    have := right.decidableOrdered
    inferInstanceAs (Decidable ((∀ inner ∈ left.root?, operator.HoldsLeft inner) ∧
      (∀ inner ∈ right.root?, operator.HoldsRight inner) ∧ left.Ordered ∧ right.Ordered))

/-- Some operator is of a kind, which may depend on its operands. -/
def HasNode (kind : InfixOperator → OperatorTree α → OperatorTree α → Prop) :
    OperatorTree α → Prop
  | operand _ => False
  | joined operator left right => kind operator left right ∨ left.HasNode kind ∨ right.HasNode kind

theorem Ordered.ofLeft (h : (joined operator left right).Ordered) : left.Ordered := h.2.2.1

theorem Ordered.ofRight (h : (joined operator left right).Ordered) : right.Ordered := h.2.2.2

/-- The left operand is complete before the operator. -/
theorem Ordered.lt_rightPrecedence (h : (joined operator left right).Ordered) :
    ∀ inner ∈ left.root?, operator.precedence < inner.rightPrecedence :=
  fun inner hinner => InfixOperator.holdsLeft_iff.1 (h.1 inner hinner)

/-- The right operand binds as tightly as its place demands. -/
theorem Ordered.rightPrecedence_le (h : (joined operator left right).Ordered) :
    ∀ inner ∈ right.root?, operator.rightPrecedence ≤ inner.precedence :=
  fun inner hinner => InfixOperator.holdsRight_iff.1 (h.2.1 inner hinner)

/-- What the operator binds tightly enough for, its left operand does too. -/
theorem Ordered.le_left (h : (joined operator left right).Ordered)
    (hleast : least ≤ operator.precedence) : ∀ inner ∈ left.root?, least ≤ inner.precedence :=
  fun inner hinner => Nat.le_trans hleast (h.1 inner hinner).le

/-- What is tight enough for the root is so for the root of its right operand. -/
theorem Ordered.le_right (h : (joined operator left right).Ordered)
    (hleast : least ≤ operator.precedence) : ∀ inner ∈ right.root?, least ≤ inner.precedence :=
  fun inner hinner => Nat.le_trans hleast (h.2.1 inner hinner).le

/-- No operator of an ordered tree binds less tightly than the one at its root. -/
theorem Ordered.le_precedence (h : tree.Ordered)
    (hroot : ∀ operator ∈ tree.root?, least ≤ operator.precedence) :
    ∀ step ∈ tree.steps, least ≤ step.1.precedence := by
  induction tree with
  | operand value => exact nofun
  | joined operator left right ihLeft ihRight =>
    have hleast : least ≤ operator.precedence := hroot operator rfl
    intro step hstep
    simp only [steps, List.mem_append, List.mem_cons] at hstep
    rcases hstep with hstep | rfl | hstep
    · exact ihLeft h.ofLeft (h.le_left hleast) step hstep
    · exact hleast
    · exact ihRight h.ofRight (h.le_right hleast) step hstep

/-! ## The tree of a row -/

/-- The tree with one more operator and operand at its end. -/
def grow (tree : OperatorTree α) (step : InfixOperator × α) : OperatorTree α :=
  match tree with
  | operand value => joined step.1 (operand value) (operand step.2)
  | joined operator left right =>
    if step.1.precedence < operator.rightPrecedence then
      joined step.1 (joined operator left right) (operand step.2)
    else
      joined operator left (right.grow step)

/-- The ordered tree over operands with operators between them. -/
def ofSteps (first : α) (steps : List (InfixOperator × α)) : OperatorTree α :=
  steps.foldl grow (operand first)

/-- An operator that binds loosely enough takes the whole tree. -/
theorem grow_of_lt {step : InfixOperator × α}
    (h : ∀ operator ∈ tree.root?, step.1.precedence < operator.rightPrecedence) :
    tree.grow step = joined step.1 tree (operand step.2) := by
  cases tree with
  | operand value => rfl
  | joined operator left right => rw [grow, if_pos (h operator rfl)]

/-- One that binds tightly takes a part of the right operand. -/
theorem grow_of_le {step : InfixOperator × α} (h : operator.rightPrecedence ≤ step.1.precedence) :
    (joined operator left right).grow step = joined operator left (right.grow step) := by
  rw [grow, if_neg (Nat.not_lt.2 h)]

/-- Growing does not change what comes first. -/
theorem first_grow (tree : OperatorTree α) (step : InfixOperator × α) :
    (tree.grow step).first = tree.first := by
  cases tree with
  | operand value => rfl
  | joined operator left right =>
    rw [grow]
    split <;> rfl

/-- The step is added at the end of the row. -/
theorem steps_grow (tree : OperatorTree α) (step : InfixOperator × α) :
    (tree.grow step).steps = tree.steps ++ [step] := by
  induction tree with
  | operand value => rfl
  | joined operator left right _ ih =>
    rw [grow]
    split
    · rfl
    · rw [steps, steps, ih, first_grow, List.append_assoc, List.cons_append]

/-- The root of the grown tree is the new operator or the one that was there. -/
theorem root?_grow {step : InfixOperator × α} {inner : InfixOperator}
    (h : inner ∈ (tree.grow step).root?) : inner = step.1 ∨ inner ∈ tree.root? := by
  cases tree with
  | operand value => exact Or.inl (Option.some.inj h).symm
  | joined operator left right =>
    rw [grow] at h
    split at h
    · exact Or.inl (Option.some.inj h).symm
    · exact Or.inr h

/-- The tree stays ordered: along the right edge, either the operator may hold what is there, or
what is there may hold the operator. -/
theorem Ordered.grow (h : tree.Ordered) (step : InfixOperator × α) : (tree.grow step).Ordered := by
  induction tree with
  | operand value => exact ⟨nofun, nofun, trivial, trivial⟩
  | joined operator left right _ ih =>
    -- The root is the new operator, or it stays, and what it demands of the grown right operand
    -- holds of the new operator as well as of the one that was there.
    obtain ⟨hleft, hright, hleftOrdered, hrightOrdered⟩ := h
    by_cases hstep : step.1.precedence < operator.rightPrecedence
    · have htakes : ∀ inner ∈ (joined operator left right).root?,
          step.1.precedence < inner.rightPrecedence := by
        rintro _ ⟨⟩
        exact hstep
      rw [grow_of_lt htakes]
      refine ⟨fun inner hinner => ?_, nofun, ⟨hleft, hright, hleftOrdered, hrightOrdered⟩, trivial⟩
      exact InfixOperator.holdsLeft_iff.2 (htakes inner hinner)
    · rw [grow_of_le (Nat.not_lt.1 hstep)]
      refine ⟨hleft, fun inner hinner => ?_, hleftOrdered, ih hrightOrdered⟩
      rcases root?_grow hinner with rfl | hinner
      · exact InfixOperator.holdsRight_iff.2 (Nat.not_lt.1 hstep)
      · exact hright inner hinner

/-- Growing keeps a tree ordered, and adds to its end what it is given. -/
theorem Ordered.foldl_grow (h : tree.Ordered) (steps : List (InfixOperator × α)) :
    (steps.foldl OperatorTree.grow tree).Ordered ∧
      (steps.foldl OperatorTree.grow tree).first = tree.first ∧
        (steps.foldl OperatorTree.grow tree).steps = tree.steps ++ steps := by
  induction steps generalizing tree with
  | nil => exact ⟨h, rfl, (List.append_nil _).symm⟩
  | cons step steps ih =>
    obtain ⟨hordered, hfirst, hsteps⟩ := ih (h.grow step)
    refine ⟨hordered, hfirst.trans (first_grow tree step), hsteps.trans ?_⟩
    rw [steps_grow, List.append_assoc, List.singleton_append]

/-- Operators that bind tightly enough leave the root and its left operand as they are. -/
theorem foldl_grow_joined {steps : List (InfixOperator × α)}
    (h : ∀ step ∈ steps, operator.rightPrecedence ≤ step.1.precedence) :
    steps.foldl grow (joined operator left right) =
      joined operator left (steps.foldl grow right) := by
  induction steps generalizing right with
  | nil => rfl
  | cons step steps ih =>
    rw [List.foldl_cons, grow_of_le (h step (List.mem_cons_self ..)), List.foldl_cons]
    exact ih fun next hnext => h next (List.mem_cons_of_mem _ hnext)

/-- An ordered tree is the one that is built from its operands. -/
theorem Ordered.ofSteps_eq (h : tree.Ordered) : ofSteps tree.first tree.steps = tree := by
  induction tree with
  | operand value => rfl
  | joined operator left right ihLeft ihRight =>
    -- The operator takes all of its left operand when it comes, and none after it takes it away.
    have hkeeps : ∀ step ∈ right.steps, operator.rightPrecedence ≤ step.1.precedence :=
      h.ofRight.le_precedence h.rightPrecedence_le
    calc ofSteps left.first (left.steps ++ (operator, right.first) :: right.steps)
        = right.steps.foldl OperatorTree.grow
            ((ofSteps left.first left.steps).grow (operator, right.first)) := by
          rw [ofSteps, List.foldl_append, List.foldl_cons]
          rfl
      _ = right.steps.foldl OperatorTree.grow (joined operator left (operand right.first)) := by
          rw [ihLeft h.ofLeft, grow_of_lt h.lt_rightPrecedence]
      _ = joined operator left (ofSteps right.first right.steps) := foldl_grow_joined hkeeps
      _ = joined operator left right := by rw [ihRight h.ofRight]

/-- Over operands with operators between them there is exactly one ordered tree. -/
theorem existsUnique_ordered (first : α) (steps : List (InfixOperator × α)) :
    ∃ tree : OperatorTree α, ∀ other : OperatorTree α,
      (other.Ordered ∧ other.first = first ∧ other.steps = steps) ↔ other = tree := by
  refine ⟨ofSteps first steps, fun other => ⟨?_, ?_⟩⟩
  · rintro ⟨hordered, rfl, rfl⟩
    exact hordered.ofSteps_eq.symm
  · rintro rfl
    have hordered : (operand first).Ordered := trivial
    exact hordered.foldl_grow steps

example : ofSteps 'a' [(.binary .exp, 'b'), (.binary .exp, 'c'), (.binary .sub, 'd')] =
    joined (.binary .sub)
      (joined (.binary .exp) (operand 'a') (joined (.binary .exp) (operand 'b') (operand 'c')))
      (operand 'd') := rfl

/-! ## Operands before an operator -/

/-- Every operand that an operator comes after, with this operator. -/
def beforeOperators (first : α) : List (InfixOperator × α) → List (α × InfixOperator)
  | [] => []
  | (operator, next) :: steps => (first, operator) :: beforeOperators next steps

/-- The operands before operators, in two parts of a row. -/
theorem beforeOperators_append (tree : OperatorTree α) (operator : InfixOperator) (next : α)
    (steps : List (InfixOperator × α)) :
    beforeOperators tree.first (tree.steps ++ (operator, next) :: steps) =
      beforeOperators tree.first tree.steps ++
        (tree.last, operator) :: beforeOperators next steps := by
  induction tree generalizing operator next steps with
  | operand value => rfl
  | joined inner left right ihLeft ihRight =>
    simp only [OperatorTree.steps, first, last, List.append_assoc, List.cons_append, ihLeft,
      ihRight]

/-- What is raised to a power in an ordered tree is an operand, the one right before `**`. -/
theorem Ordered.hasNode_exp_iff (h : tree.Ordered) (p : α → Prop) :
    tree.HasNode (fun operator left _ => operator = .binary .exp ∧ ∃ value,
        left = operand value ∧ p value) ↔
      ∃ x ∈ beforeOperators tree.first tree.steps, p x.1 ∧ x.2 = .binary .exp := by
  induction tree with
  | operand value => simp [HasNode, steps, beforeOperators]
  | joined operator left right ihLeft ihRight =>
    have hraised : operator = .binary .exp → left = operand left.last := by
      rintro rfl
      cases left with
      | operand value => rfl
      | joined => exact absurd (h.1 _ rfl) InfixOperator.not_holdsLeft_exp
    have hkind : (operator = .binary .exp ∧ ∃ value, left = operand value ∧ p value) ↔
        p left.last ∧ operator = .binary .exp := by
      constructor
      · rintro ⟨hexp, value, rfl, hp⟩
        exact ⟨hp, hexp⟩
      · rintro ⟨hp, hexp⟩
        exact ⟨hexp, left.last, hraised hexp, hp⟩
    simp only [HasNode, hkind, ihLeft h.ofLeft, ihRight h.ofRight, first, steps,
      beforeOperators_append, List.mem_append, List.mem_cons, or_and_right, exists_or,
      exists_eq_left]
    exact or_left_comm

end OperatorTree

end Estree
