import Mathlib.Logic.Basic
import Estree.Proofs.Expr.Views
import Estree.Proofs.Grammar.Derivation

/-!
# Comparing what is read

Two readings are compared production by production: the same production, given operands and runs
that look the same, has to yield values that look the same (`Production.Like`). Nodes that are put
together from trees that look the same look the same again.

A `View` shows a tree with its offsets moved and with a word taken out of it, and values look the
same if they are equal in their views (`View.Same`). So two lists that look the same have elements
that do, and two nodes of one kind look the same if their spans and their parts do. What the grammar
looks at in a tree before it goes on is seen in every view: whether a run has an optional link, and
which logical operator an operand has at its root.

The lemmas are in three groups, after the values that productions hand on: nodes, runs and operands.
In each group the first lemmas take a value apart, and the others put one together.
-/

namespace Estree

/-! ## Values in views -/

/-- What holds trees and offsets, and can be looked at like they. -/
class Viewed (α : Type) where
  view : View → α → α

instance : Viewed Expr where
  view := View.tree

instance {α : Type} [Viewed α] : Viewed (Option α) where
  view x := Option.map (Viewed.view x)

instance {α : Type} [Viewed α] : Viewed (List α) where
  view x := List.map (Viewed.view x)

instance : Viewed Climbed where
  view x climbed := { climbed with expr := x.tree climbed.expr }

instance : Viewed Links where
  view x links := { links with node := x.tree links.node }

instance : Viewed Callee where
  view x callee :=
    ⟨Viewed.view x callee.links, Viewed.view x callee.arguments, callee.stop?.map x.offset⟩

namespace View

/-- The values look the same, each in its view. -/
def Same (x y : View) {α : Type} [Viewed α] (v w : α) : Prop :=
  Viewed.view x v = Viewed.view y w

/-- Trees that look the same have spans that look the same. -/
structure Comparable (x y : View) : Prop where
  span_eq : ∀ {e e' : Expr}, x.Same y e e' →
    e.span.relocated x.offset = e'.span.relocated y.offset

variable {x y : View} {α : Type} [Viewed α]

section Parts

variable {v w : α} {v? w? : Option α} {vs ws : List α}

/-- Values that look the same are equal in their views. -/
theorem Same.eq (h : x.Same y v w) : Viewed.view x v = Viewed.view y w := h

theorem same_none : x.Same y (none : Option α) none := rfl

/-- What is present looks the same. -/
theorem Same.some (h : x.Same y v w) : x.Same y (some v) (some w) :=
  congrArg Option.some h.eq

/-- A value that looks like nothing is nothing. -/
theorem Same.eq_none_or (h : x.Same y v? w?) :
    v? = none ∧ w? = none ∨ ∃ v w, v? = Option.some v ∧ w? = Option.some w ∧ x.Same y v w := by
  cases v? with
  | none =>
    cases w? with
    | none => exact Or.inl ⟨rfl, rfl⟩
    | some w => cases h
  | some v =>
    cases w? with
    | none => cases h
    | some w => exact Or.inr ⟨v, w, rfl, rfl, Option.some.inj h⟩

/-- What looks like nothing is nothing. -/
theorem Same.eq_none (h : x.Same y (none : Option α) w?) : w? = none := by
  rcases h.eq_none_or with ⟨-, hw⟩ | ⟨_, _, hv, -⟩
  · exact hw
  · cases hv

/-- What looks like something is something. -/
theorem Same.exists_some (h : x.Same y (Option.some v) w?) :
    ∃ w, w? = Option.some w ∧ x.Same y v w := by
  rcases h.eq_none_or with ⟨hv, -⟩ | ⟨_, w, hv, hw, hsame⟩
  · cases hv
  · cases hv
    exact ⟨w, hw, hsame⟩

theorem same_nil : x.Same y ([] : List α) [] := rfl

/-- Lists are compared element by element. -/
theorem Same.cons (h : x.Same y v w) (hs : x.Same y vs ws) : x.Same y (v :: vs) (w :: ws) :=
  congrArg₂ List.cons h.eq hs.eq

/-- Lists that look the same are both empty, or have a first element each. -/
theorem Same.eq_nil_or (h : x.Same y vs ws) : vs = [] ∧ ws = [] ∨
    ∃ v vs' w ws', vs = v :: vs' ∧ ws = w :: ws' ∧ x.Same y v w ∧ x.Same y vs' ws' := by
  cases vs with
  | nil =>
    cases ws with
    | nil => exact Or.inl ⟨rfl, rfl⟩
    | cons w ws' => cases h
  | cons v vs' =>
    cases ws with
    | nil => cases h
    | cons w ws' =>
      obtain ⟨hhead, htail⟩ := List.cons.inj h
      exact Or.inr ⟨v, vs', w, ws', rfl, rfl, hhead, htail⟩

/-- What looks like a list with elements has some. -/
theorem Same.ne_nil (h : x.Same y vs ws) (hne : vs ≠ []) : ws ≠ [] := by
  rcases h.eq_nil_or with ⟨hvs, -⟩ | ⟨_, _, w, ws', -, rfl, -⟩
  · exact absurd hvs hne
  · exact List.cons_ne_nil w ws'

/-- What is present or absent is compared as a list. -/
theorem Same.toList (h : x.Same y v? w?) : x.Same y v?.toList w?.toList := by
  rcases h.eq_none_or with ⟨rfl, rfl⟩ | ⟨v, w, rfl, rfl, hvw⟩
  · exact same_nil
  · exact hvw.cons same_nil

/-- So it is as a list of elements. -/
theorem Same.toElements (h : x.Same y v? w?) :
    x.Same y (v?.toList.map Option.some) (w?.toList.map Option.some) := by
  rcases h.eq_none_or with ⟨rfl, rfl⟩ | ⟨v, w, rfl, rfl, hvw⟩
  · exact same_nil
  · exact hvw.some.cons same_nil

end Parts

variable {e e' test test' consequent consequent' alternate alternate' : Expr} {es es' : List Expr}
  {a a' b b' : Nat}

/-- Trees that look the same begin alike. -/
theorem Comparable.start (h : Comparable x y) (he : x.Same y e e') :
    x.offset e.span.start = y.offset e'.span.start :=
  congrArg Span.start (h.span_eq he)

/-- Trees that look the same end alike. -/
theorem Comparable.stop (h : Comparable x y) (he : x.Same y e e') :
    x.offset e.span.stop = y.offset e'.span.stop :=
  congrArg Span.stop (h.span_eq he)

/-- Spans with ends that compare are the same when moved. -/
theorem relocated_eq {f g : Nat → Nat} (ha : f a = g a') (hb : f b = g b') :
    (Span.mk a b).relocated f = (Span.mk a' b').relocated g :=
  congrArg₂ Span.mk ha hb

/-- Identifiers are the same when moved if their spans are. -/
theorem relocated_identifier {f g : Nat → Nat} {span span' : Span}
    (h : span.relocated f = span'.relocated g) (name : String) :
    (Expr.identifier span name).relocated f = (Expr.identifier span' name).relocated g :=
  congrArg (Expr.identifier · name) h

/-- A word is a keyword, which no tree stands in for, or an identifier. -/
theorem ofWord_cases (span : Span) (word : String) :
    (∀ x : View, x.tree (Leaf.ofWord span word) = (Leaf.ofWord span word).relocated x.offset) ∨
      Leaf.ofWord span word = .identifier span word := by
  unfold Leaf.ofWord
  split
  · exact Or.inl fun x => x.tree_this span
  · exact Or.inl fun x => x.tree_literal span _ _
  · exact Or.inl fun x => x.tree_literal span _ _
  · exact Or.inl fun x => x.tree_literal span _ _
  · exact Or.inr rfl

/-- A word is moved by its span. -/
theorem relocated_ofWord (f : Nat → Nat) (span : Span) (word : String) :
    (Leaf.ofWord span word).relocated f = Leaf.ofWord (span.relocated f) word := by
  unfold Leaf.ofWord
  split <;> rfl

/-! ## Nodes that look the same -/

/-- The last element of a list that is changed one by one. -/
theorem getLastD_map {α β : Type} (f : α → β) (xs : List α) (x : α) :
    (xs.map f).getLastD (f x) = f (xs.getLastD x) := by
  induction xs generalizing x with
  | nil => rfl
  | cons y ys ih => rw [List.map_cons, List.getLastD_cons, List.getLastD_cons, ih]

/-- Lists that look the same end in elements that do. -/
theorem Same.getLastD (he : x.Same y e e') (hes : x.Same y es es') :
    x.Same y (es.getLastD e) (es'.getLastD e') := by
  have hx := getLastD_map x.tree es e
  have hy := getLastD_map y.tree es' e'
  have hlist : es.map x.tree = es'.map y.tree := hes
  have htree : x.tree e = y.tree e' := he
  rw [hlist, htree] at hx
  exact hx.symm.trans hy

/-- The nodes around expressions look the same if these do. -/
theorem Same.sequenceNode? (h : Comparable x y) (hes : x.Same y es es') {span? span?' : Option Span}
    (hspan : span?.map (·.relocated x.offset) = span?'.map (·.relocated y.offset)) :
    x.Same y (Grammar.sequenceNode? span? es) (Grammar.sequenceNode? span?' es') := by
  rcases hes.eq_nil_or with ⟨rfl, rfl⟩ | ⟨e, rest, e', rest', rfl, rfl, he, hrest⟩
  · exact same_none
  · rcases hrest.eq_nil_or with ⟨rfl, rfl⟩ | ⟨second, others, second', others', rfl, rfl, -, -⟩
    · exact he.some
    · have hspan' :
          (span?.getD ⟨e.span.start, ((second :: others).getLastD e).span.stop⟩).relocated
            x.offset =
          (span?'.getD ⟨e'.span.start, ((second' :: others').getLastD e').span.stop⟩).relocated
            y.offset := by
        cases span? with
        | none =>
          cases span?' with
          | none => exact relocated_eq (h.start he) (h.stop (he.getLastD hrest))
          | some span' => cases hspan
        | some span =>
          cases span?' with
          | none => cases hspan
          | some span' => exact Option.some.inj hspan
      refine Same.some ?_
      show x.tree (.sequence _ _) = y.tree (.sequence _ _)
      rw [tree_sequence, tree_sequence]
      exact congrArg₂ Expr.sequence hspan' hes.eq

/-- So do conditionals, -/
theorem Same.conditional (h : Comparable x y) (htest : x.Same y test test')
    (hconsequent : x.Same y consequent consequent') (halternate : x.Same y alternate alternate') :
    x.Same y (Expr.conditional ⟨test.span.start, alternate.span.stop⟩ test consequent alternate)
      (Expr.conditional ⟨test'.span.start, alternate'.span.stop⟩ test' consequent' alternate') := by
  have htest' : x.tree test = y.tree test' := htest
  have hconsequent' : x.tree consequent = y.tree consequent' := hconsequent
  have halternate' : x.tree alternate = y.tree alternate' := halternate
  show x.tree _ = y.tree _
  rw [tree_conditional, tree_conditional, relocated_eq (h.start htest) (h.stop halternate), htest',
    hconsequent', halternate']

/-- joined operands, -/
theorem Same.join (h : Comparable x y) (operator : InfixOperator) (hleft : x.Same y test test')
    (hright : x.Same y alternate alternate') :
    x.Same y (operator.join test alternate) (operator.join test' alternate') := by
  have hleft' : x.tree test = y.tree test' := hleft
  have hright' : x.tree alternate = y.tree alternate' := hright
  show x.tree _ = y.tree _
  rw [tree_join, tree_join, h.start hleft, h.stop hright, hleft', hright']

/-- and operands of a unary operator. -/
theorem Same.unary (h : Comparable x y) (operator : UnaryOperator) (ha : x.offset a = y.offset a')
    (he : x.Same y e e') :
    x.Same y (Expr.unary ⟨a, e.span.stop⟩ operator true e)
      (Expr.unary ⟨a', e'.span.stop⟩ operator true e') := by
  have he' : x.tree e = y.tree e' := he
  show x.tree _ = y.tree _
  rw [tree_unary, tree_unary, relocated_eq ha (h.stop he), he']

/-- So do updates, if what they update is no hole. -/
theorem Same.update (operator : UpdateOperator) (leading : Bool)
    (hleft : ∀ hole ∈ x.hole?, hole.isAt e = false)
    (hright : ∀ hole ∈ y.hole?, hole.isAt e' = false)
    (ha : x.offset a = y.offset a') (hb : x.offset b = y.offset b') (he : x.Same y e e') :
    x.Same y (Expr.update ⟨a, b⟩ operator leading e)
      (Expr.update ⟨a', b'⟩ operator leading e') := by
  have he' : x.tree e = y.tree e' := he
  show x.tree _ = y.tree _
  rw [tree_update _ _ _ _ hleft, tree_update _ _ _ _ hright, relocated_eq ha hb, he']

/-- So do arrays. -/
theorem Same.array {elements elements' : List (Option Expr)} (ha : x.offset a = y.offset a')
    (hb : x.offset b = y.offset b') (h : x.Same y elements elements') :
    x.Same y (Expr.array ⟨a, b⟩ elements) (Expr.array ⟨a', b'⟩ elements') := by
  show x.tree _ = y.tree _
  rw [tree_array, tree_array, relocated_eq ha hb]
  exact congrArg _ h.eq

/-- So does a `new`, if its callee is no hole. -/
theorem Same.new (hleft : ∀ hole ∈ x.hole?, hole.isAt e = false)
    (hright : ∀ hole ∈ y.hole?, hole.isAt e' = false) (ha : x.offset a = y.offset a')
    (hb : x.offset b = y.offset b') (he : x.Same y e e') (hes : x.Same y es es') :
    x.Same y (Expr.new ⟨a, b⟩ e es) (Expr.new ⟨a', b'⟩ e' es') := by
  show x.tree _ = y.tree _
  rw [tree_new _ _ hleft, tree_new _ _ hright, relocated_eq ha hb]
  exact congrArg₂ _ he.eq hes.eq

/-! ## Runs that look the same -/

variable {before before' : Links}

/-- Runs that look the same have nodes that do. -/
theorem Same.node (h : x.Same y before before') : x.Same y before.node before'.node :=
  congrArg Links.node h.eq

/-- Runs that look the same have an optional link both, or neither. -/
theorem Same.hasOptional (h : x.Same y before before') :
    before.hasOptional = before'.hasOptional := by
  have heq := congrArg (fun links : Links => links.hasOptional) h.eq
  exact heq

/-- Runs look the same if their nodes do. -/
theorem same_links {hasOptional : Bool} (h : x.Same y e e') :
    x.Same y (⟨e, hasOptional⟩ : Links) ⟨e', hasOptional⟩ :=
  congrArg (fun node => Links.mk node hasOptional) h.eq

/-- Complete runs look the same, with or without a chain. -/
theorem Same.finish (h : Comparable x y) (hrun : x.Same y before before') :
    x.Same y before.finish before'.finish := by
  rcases before with ⟨node, _ | _⟩ <;> rcases before' with ⟨node', _ | _⟩
  · exact hrun.node
  · cases hrun.hasOptional
  · cases hrun.hasOptional
  · show x.tree (.chain _ _) = y.tree (.chain _ _)
    rw [tree_chain, tree_chain, h.span_eq hrun.node]
    exact congrArg _ hrun.node.eq

/-- One more access by an expression. -/
theorem Same.computed (h : Comparable x y) (hrun : x.Same y before before') (he : x.Same y e e')
    {access : Access} (haccess : access.computed = true) (ha : x.offset a = y.offset a') :
    x.Same y (Grammar.memberLinks before e access a)
      (Grammar.memberLinks before' e' access a') := by
  have hnode : x.tree before.node = y.tree before'.node := hrun.node
  have he' : x.tree e = y.tree e' := he
  show Links.mk _ _ = Links.mk _ _
  dsimp only [Grammar.memberLinks]
  rw [haccess, tree_computed, tree_computed, relocated_eq (h.start hrun.node) ha, hnode, he',
    hrun.hasOptional]

/-- One more access by a name. -/
theorem Same.named (h : Comparable x y) (hrun : x.Same y before before')
    (he : e.relocated x.offset = e'.relocated y.offset) {access : Access}
    (haccess : access.computed = false) (ha : x.offset a = y.offset a') :
    x.Same y (Grammar.memberLinks before e access a)
      (Grammar.memberLinks before' e' access a') := by
  have hnode : x.tree before.node = y.tree before'.node := hrun.node
  show Links.mk _ _ = Links.mk _ _
  dsimp only [Grammar.memberLinks]
  rw [haccess, tree_named, tree_named, relocated_eq (h.start hrun.node) ha, hnode, he,
    hrun.hasOptional]

/-- One more call. -/
theorem Same.called (h : Comparable x y) (hrun : x.Same y before before') (hes : x.Same y es es')
    (optional : Bool) (ha : x.offset a = y.offset a') :
    x.Same y (Grammar.callLinks before es optional a)
      (Grammar.callLinks before' es' optional a') := by
  have hnode : x.tree before.node = y.tree before'.node := hrun.node
  have hes' : es.map x.tree = es'.map y.tree := hes
  show Links.mk _ _ = Links.mk _ _
  dsimp only [Grammar.callLinks]
  rw [tree_call, tree_call, relocated_eq (h.start hrun.node) ha, hnode, hes', hrun.hasOptional]

/-- A run looks the same with another mark of an optional link. -/
theorem Same.withOptional (hrun : x.Same y before before') (optional : Bool) :
    x.Same y (⟨before.node, before.hasOptional || optional⟩ : Links)
      ⟨before'.node, before'.hasOptional || optional⟩ := by
  rw [hrun.hasOptional]
  exact same_links hrun.node

variable {callee callee' : Callee}

/-- Callees that look the same have runs that do. -/
theorem Same.links (h : x.Same y callee callee') : x.Same y callee.links callee'.links :=
  congrArg Callee.links h.eq

/-- Callees that look the same have arguments that do. -/
theorem Same.arguments (h : x.Same y callee callee') :
    x.Same y callee.arguments callee'.arguments :=
  congrArg Callee.arguments h.eq

/-- Where the node ends that a callee belongs to. -/
theorem Comparable.calleeStop (h : Comparable x y) (hcallee : x.Same y callee callee') :
    x.offset (callee.stop?.getD callee.links.node.span.stop) =
      y.offset (callee'.stop?.getD callee'.links.node.span.stop) := by
  have hmap : callee.stop?.map x.offset = callee'.stop?.map y.offset :=
    congrArg Callee.stop? hcallee.eq
  have hnode := h.stop hcallee.links.node
  cases hs : callee.stop? with
  | none =>
    cases hs' : callee'.stop? with
    | none => exact hnode
    | some stop' => rw [hs, hs'] at hmap; cases hmap
  | some stop =>
    cases hs' : callee'.stop? with
    | none => rw [hs, hs'] at hmap; cases hmap
    | some stop' => rw [hs, hs'] at hmap; exact Option.some.inj hmap

/-- A callee without arguments. -/
theorem same_uncalled (h : x.Same y before before') :
    x.Same y (⟨before, [], none⟩ : Callee) ⟨before', [], none⟩ :=
  congrArg (fun links => Callee.mk links [] none) h.eq

/-- A callee with arguments. -/
theorem same_calledWith (h : x.Same y before before') (hes : x.Same y es es')
    (ha : x.offset a = y.offset a') :
    x.Same y (⟨before, es, some a⟩ : Callee) ⟨before', es', some a'⟩ := by
  have hbefore : Viewed.view x before = Viewed.view y before' := h
  have hes' : Viewed.view x es = Viewed.view y es' := hes
  show Callee.mk _ _ _ = Callee.mk _ _ _
  rw [hbefore, hes']
  exact congrArg _ (congrArg some ha)

/-! ## Operands that look the same -/

variable {left left' : Climbed}

/-- Operands that look the same have trees that do. -/
theorem Same.expr (h : x.Same y left left') : x.Same y left.expr left'.expr :=
  congrArg Climbed.expr h.eq

/-- They have the same logical operator at their roots. -/
theorem Same.bareLogical (h : x.Same y left left') : left.bareLogical = left'.bareLogical := by
  have heq := congrArg (fun climbed : Climbed => climbed.bareLogical) h.eq
  exact heq

/-- So they clash with the same operators. -/
theorem Same.clashes_eq (h : x.Same y left left') : left.clashes = left'.clashes := by
  funext operator
  rw [Climbed.clashes, Climbed.clashes, h.bareLogical]

/-- An operand that is present or absent is compared by its tree. -/
theorem Same.map_expr {climbed? climbed?' : Option Climbed} (h : x.Same y climbed? climbed?') :
    x.Same y (climbed?.map (·.expr)) (climbed?'.map (·.expr)) := by
  rcases h.eq_none_or with ⟨rfl, rfl⟩ | ⟨climbed, climbed', rfl, rfl, hsame⟩
  · exact same_none
  · exact hsame.expr.some

/-- Operands that look the same are allowed beside the same operators. -/
theorem Same.allows {operator : InfixOperator} {right right' : Climbed}
    (hleft : x.Same y left left') (hright : x.Same y right right')
    (h : operator.Allows left right) : operator.Allows left' right' := by
  intro logical hlogical
  rw [← hleft.clashes_eq, ← hright.clashes_eq]
  exact h logical hlogical

/-- Operands look the same if their trees do. -/
theorem same_climbed {bareLogical : Option LogicalOperator} (h : x.Same y e e') :
    x.Same y (⟨e, bareLogical⟩ : Climbed) ⟨e', bareLogical⟩ :=
  congrArg (fun expr => Climbed.mk expr bareLogical) h.eq

end View

/-! ## Productions that are compared -/

/-- The same production with parts that look the same, and how their yields are compared. -/
inductive Production.Like (x y : View) : (p q : Production) → (p.Yield → q.Yield → Prop) → Prop
  | sequence (grouped : Bool) :
    Like x y (.sequence grouped) (.sequence grouped) (x.Same y (α := Option Expr))
  | expressions (isFirst : Bool) :
    Like x y (.expressions isFirst) (.expressions isFirst) (x.Same y (α := List Expr))
  | expression : Like x y .expression .expression (x.Same y (α := Option Expr))
  | conditional : Like x y .conditional .conditional (x.Same y (α := Option Expr))
  | operands (least : Nat) :
    Like x y (.operands least) (.operands least) (x.Same y (α := Option Climbed))
  | climb (least : Nat) : Like x y (.climb least) (.climb least) (x.Same y (α := Option Climbed))
  | infixes (least : Nat) {left left' : Climbed} (isBareUnary : Bool) : x.Same y left left' →
    Like x y (.infixes least left isBareUnary) (.infixes least left' isBareUnary)
      (x.Same y (α := Climbed))
  | unary : Like x y .unary .unary (x.Same y (α := Option Expr))
  | unaryForm : Like x y .unaryForm .unaryForm (x.Same y (α := Option Expr))
  | token : Like x y .token .token (x.Same y (α := Option Expr))
  | links {before before' : Links} : x.Same y before before' →
    Like x y (.links before) (.links before') (x.Same y (α := Links))
  | primary : Like x y .primary .primary (x.Same y (α := Option Expr))
  | primaryForm : Like x y .primaryForm .primaryForm (x.Same y (α := Option Expr))
  | member {before before' : Links} (access : Access) : x.Same y before before' →
    Like x y (.member before access) (.member before' access) (x.Same y (α := Links))
  | accesses {before before' : Links} (access : Access) : x.Same y before before' →
    Like x y (.accesses before access) (.accesses before' access) (x.Same y (α := Links))
  | call {before before' : Links} (optional : Bool) : x.Same y before before' →
    Like x y (.call before optional) (.call before' optional) (x.Same y (α := Links))
  | arguments : Like x y .arguments .arguments (x.Same y (α := List Expr))
  | argumentList : Like x y .argumentList .argumentList (x.Same y (α := List Expr))
  | construct {start start' : Nat} : x.offset start = y.offset start' →
    Like x y (.construct start) (.construct start') (x.Same y (α := Expr))
  | calleeLinks {before before' : Links} : x.Same y before before' →
    Like x y (.calleeLinks before) (.calleeLinks before') (x.Same y (α := Callee))
  | updated (operator : UpdateOperator) {start start' : Nat} : x.offset start = y.offset start' →
    Like x y (.updated operator start) (.updated operator start') (x.Same y (α := Expr))
  | array {start start' : Nat} : x.offset start = y.offset start' →
    Like x y (.array start) (.array start') (x.Same y (α := Expr))
  | elements : Like x y .elements .elements (x.Same y (α := List (Option Expr)))

end Estree
