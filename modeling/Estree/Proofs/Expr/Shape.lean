import Mathlib.Logic.ExistsUnique
import Estree.Proofs.Expr.Spine
import Estree.Proofs.Number.Numeral
import Estree.Source

/-!
# Shapes of trees

Three ways to say that a tree is one that a text may be read as, for three uses.

> `WellFormed`: what a caller that builds a tree has to see to. It speaks of names, spellings,
> kinds of nodes and chains, so that it can be checked without knowing how trees are written.

> `WellShaped`: what a caller that is given a tree may rely on, in the same terms.

> `Fits`: a condition on one node and the nodes right below it, which both are measured against. It
> is the one that inductions carry: `AllFit` for the root follows from `Fits` and `AllFit` for the
> nodes right below (`allFit_of_fits`), and every production establishes it for what it yields.

Of well-formed trees all nodes fit (`WellFormed.fits`), and trees of which all nodes fit are well
shaped (`wellShaped_of_fits`). The converse of the first fails only in names: `typeof` may be read
as an identifier where no operand follows, but a tree with such a name may be written as a text that
is read in another way. `wellFormed_iff` says that free names are all that is asked of a caller and
does not hold of every tree that has been read.
-/

namespace Estree

/-- The name of an identifier, keywords included. -/
def IsName (name : String) : Prop :=
  ∃ x xs, name.toList = x :: xs ∧ Text.isIdentifierStart x = true ∧
    ∀ y ∈ xs, Text.isIdentifierPart y = true

/-- The spelling of a literal, and the value that it spells. -/
inductive Spells : String → LiteralValue → Prop
  | true : Spells "true" (.boolean true)
  | false : Spells "false" (.boolean false)
  | null : Spells "null" .null
  | number {raw : String} {decimal : Decimal} :
    IsNumeral raw.toList → Decimal.read? raw.toList = some decimal →
    Spells raw (.number (.ofDecimal decimal))

/-- Every numeral spells a number, so that a caller may choose any. -/
theorem Spells.exists_number {raw : String} (h : IsNumeral raw.toList) :
    ∃ number, Spells raw (.number number) := by
  obtain ⟨decimal, hdecimal⟩ := Option.isSome_iff_exists.1 (Decimal.read?_isSome_of_isNumeral h)
  exact ⟨.ofDecimal decimal, .number h hdecimal⟩

namespace Expr

/-! ## Names -/

/-- The words that are no identifiers where an operand stands. -/
def reservedWords : List String := ["new", "this", "true", "false", "null"]

/-- Whether the node is an identifier with the name of such a word. -/
def isReserved : Expr → Bool
  | identifier _ name => reservedWords.contains name
  | _ => false

/-- Whether the node is an identifier with the name of an operator: `typeof`, `void` or `delete`. -/
def isOperatorWord : Expr → Bool
  | identifier _ name => (UnaryOperator.ofText? name).isSome
  | _ => false

/-- Whether the first word of the tree's text is such an identifier: an operator would be read there
where an operand stands. -/
def opensWithOperator : Expr → Bool
  | identifier _ name => (UnaryOperator.ofText? name).isSome
  | call _ callee _ _ => callee.opensWithOperator
  | member _ object _ _ _ => object.opensWithOperator
  | chain _ expression => expression.opensWithOperator
  | update _ _ false argument => argument.opensWithOperator
  | _ => false

/-- Whether the node is a `new` with a callee in parentheses of which the first word is read as an
operator there. -/
def isMisread : Expr → Bool
  | new _ callee _ => callee.isGroupedAfterNew && callee.opensWithOperator
  | _ => false

/-! ## What fits together -/

/-- The nodes right below a node that are read as operands or expressions of their own. The others
are parts of a run or the places that updates apply to. -/
def standalone : Expr → List Expr
  | array _ elements => elements.filterMap id
  | sequence _ expressions => expressions
  | conditional _ test consequent alternate => [test, consequent, alternate]
  | new _ _ arguments => arguments
  | call _ callee arguments _ =>
    if callee.isGroupedBeforeLink then callee :: arguments else arguments
  | member _ object property computed _ =>
    (if object.isGroupedBeforeLink then [object] else []) ++ (if computed then [property] else [])
  | unary _ _ _ argument => [argument]
  | binary _ _ left right | logical _ _ left right => [left, right]
  | literal .. | identifier .. | this _ | chain .. | update .. => []

/-- What a node of each kind has to be like by itself. -/
def HasShape : Expr → Prop
  | literal _ raw value => Spells raw value
  | identifier _ name => IsName name
  | sequence _ expressions => 2 ≤ expressions.length
  | new _ callee _ => callee.isChain = false
  | member _ _ property computed _ => computed = false → property.isIdentifier = true
  | chain _ expression => expression.hasOptionalLink = true
  | update _ _ _ argument => argument.isPlace = true
  | unary _ _ leading _ => leading = true
  | _ => True

/-- A node and the nodes right below it make up something that a text may be read as. -/
structure Fits (e : Expr) : Prop where
  shape : e.HasShape
  /-- No operand has the name of a reserved word. -/
  names : ∀ x ∈ e.operands, x.isReserved = false
  /-- Optional links are within chains. -/
  spines : ∀ x ∈ e.detached, x.hasOptionalLink = false
  /-- Where operands are read, no operator is. -/
  words : ∀ x ∈ e.standalone, x.opensWithOperator = false

/-- All nodes of the tree fit. -/
def AllFit (e : Expr) : Prop :=
  ∀ n ∈ e.nodes, n.Fits

/-- The tree can stand where an operand is read. -/
structure IsFree (e : Expr) : Prop where
  name : e.isReserved = false
  spine : e.hasOptionalLink = false
  word : e.opensWithOperator = false

variable {e x : Expr}

/-- The root of such a tree fits. -/
theorem AllFit.root (h : e.AllFit) : e.Fits :=
  h e (mem_nodes_self e)

/-- So do all nodes below a node right below it. -/
theorem AllFit.child (h : e.AllFit) (hx : x ∈ e.children) : x.AllFit :=
  (forall_mem_nodes_iff.1 h).2 x hx

/-- Nodes that fit, put below one that does. -/
theorem allFit_of_fits (h : e.Fits) (hchildren : ∀ x ∈ e.children, x.AllFit) : e.AllFit :=
  forall_mem_nodes_iff.2 ⟨h, hchildren⟩

/-! ## Well-formed trees -/

/-- The identifier is neither a reserved word nor an operator. -/
def HasFreeName : Expr → Prop
  | identifier _ name =>
    IsName name ∧ name ∉ ["new", "this", "true", "false", "null", "typeof", "void", "delete"]
  | _ => True

/-- A tree as it has to be built so that its text is read as the same tree. -/
structure WellFormed (e : Expr) : Prop where
  literals : ∀ span raw value, literal span raw value ∈ e.nodes → Spells raw value
  name : e.HasFreeName
  names : ∀ n ∈ e.nodes, ∀ x ∈ n.operands, x.HasFreeName
  properties : ∀ span object property optional,
    member span object property false optional ∈ e.nodes →
    ∃ nameSpan name, property = identifier nameSpan name ∧ IsName name
  sequences : ∀ span expressions, sequence span expressions ∈ e.nodes → 2 ≤ expressions.length
  unaries : ∀ span operator leading argument, unary span operator leading argument ∈ e.nodes →
    leading = true
  updates : ∀ span operator leading argument, update span operator leading argument ∈ e.nodes →
    argument.isPlace = true
  chains : ∀ top span expression, e.at? top = some (chain span expression) →
    expression.isLink = true ∧
      ∃ path link, OnSpine e (top ++ [0]) path ∧ e.at? path = some link ∧ link.isOptional = true
  optionals : ∀ path link, e.at? path = some link → link.isOptional = true →
    ∃ top, InChain e top path
  callees : ∀ span callee arguments, new span callee arguments ∈ e.nodes → callee.isChain = false

/-- A free name is none of an operator. -/
theorem isOperatorWord_of_hasFreeName (h : e.HasFreeName) : e.isOperatorWord = false := by
  cases e with
  | identifier span name =>
    refine Bool.eq_false_iff.2 fun hword => h.2 ?_
    obtain ⟨operator, hoperator⟩ := Option.isSome_iff_exists.1 hword
    have hall : ∀ operator ∈ UnaryOperator.all, operator.text = name → IsName name → name ∈
        ["new", "this", "true", "false", "null", "typeof", "void", "delete"] := by
      rintro operator hmem rfl ⟨x, xs, htext, hx, -⟩
      simp only [UnaryOperator.all, List.mem_cons, List.not_mem_nil, or_false] at hmem
      rcases hmem with rfl | rfl | rfl | rfl | rfl | rfl | rfl
      · cases htext
        exact absurd (by decide) (Text.not_mem_symbols hx)
      · cases htext
        exact absurd (by decide) (Text.not_mem_symbols hx)
      · cases htext
        exact absurd (by decide) (Text.not_mem_symbols hx)
      · cases htext
        exact absurd (by decide) (Text.not_mem_symbols hx)
      · decide
      · decide
      · decide
    have hfind := List.find?_some hoperator
    exact hall operator (List.mem_of_find?_eq_some hoperator) (by simpa using hfind) h.1
  | _ => rfl

/-- Nor is it a reserved word. -/
theorem isReserved_of_hasFreeName (h : e.HasFreeName) : e.isReserved = false := by
  cases e with
  | identifier span name =>
    refine Bool.eq_false_iff.2 fun hword => h.2 ?_
    have hmem : name ∈ reservedWords := by simpa [isReserved] using hword
    exact List.mem_append_left ["typeof", "void", "delete"] hmem
  | _ => rfl

/-- A text begins with an operator's word only if some operand is such a word. -/
theorem opensWithOperator_of_names (hroot : e.isOperatorWord = false)
    (hnames : ∀ n ∈ e.nodes, ∀ x ∈ n.operands, x.isOperatorWord = false) :
    e.opensWithOperator = false := by
  induction e using Expr.induction with
  | h e ih =>
    have hstep : ∀ x ∈ e.operands, x.opensWithOperator = false := by
      intro x hx
      have hchild := mem_children_of_mem_operands hx
      refine ih x hchild (hnames e (mem_nodes_self e) x hx) fun n hn => ?_
      exact hnames n (mem_nodes_of_mem_children hchild hn)
    cases e with
    | identifier span name => exact hroot
    | call span callee es optional => exact hstep callee (List.mem_cons_self ..)
    | member span object property computed optional =>
      cases computed <;> exact hstep object (List.mem_cons_self ..)
    | chain span expression => exact hstep expression (List.mem_cons_self ..)
    | update span operator leading argument =>
      cases leading with
      | true => rfl
      | false => exact hstep argument (List.mem_cons_self ..)
    | _ => rfl

/-- What is read on its own is an operand, and no name after a point. -/
theorem mem_operands_of_mem_standalone (h : x ∈ e.standalone) : x ∈ e.operands := by
  cases e with
  | new span callee es => exact List.mem_cons_of_mem _ h
  | call span callee es optional =>
    simp only [standalone] at h
    split at h
    next => exact h
    next => exact List.mem_cons_of_mem _ h
  | member span object property computed optional =>
    simp only [standalone, List.mem_append, List.mem_ite_nil_right, List.mem_singleton] at h
    cases computed with
    | true =>
      rcases h with ⟨-, rfl⟩ | ⟨-, rfl⟩
      · exact List.mem_cons_self ..
      · exact List.mem_cons_of_mem _ (List.mem_cons_self ..)
    | false =>
      rcases h with ⟨-, rfl⟩ | ⟨hcomputed, -⟩
      · exact List.mem_cons_self ..
      · cases hcomputed
  | unary | binary | logical | conditional | array | sequence => exact h
  | _ => cases h

namespace WellFormed

/-- Identifiers have names, those of member accesses included. -/
theorem isName (h : e.WellFormed) {span : Span} {name : String}
    (hmem : identifier span name ∈ e.nodes) : IsName name := by
  rcases eq_or_mem_children_of_mem_nodes hmem with heq | ⟨m, hm, hchild⟩
  · have hfree := h.name
    rw [← heq] at hfree
    exact hfree.1
  · by_cases hoperand : identifier span name ∈ m.operands
    · exact (h.names m hm _ hoperand).1
    · cases m with
      | member mspan object property computed optional =>
        cases computed with
        | true => exact absurd hchild hoperand
        | false =>
          rcases List.mem_cons.1 hchild with heq | hproperty
          · exact absurd (List.mem_singleton.2 heq) hoperand
          · obtain ⟨pspan, pname, heq, hname⟩ := h.properties _ _ _ _ hm
            cases heq.symm.trans (List.mem_singleton.1 hproperty).symm
            exact hname
      | _ => exact absurd hchild hoperand

theorem isFree (h : e.WellFormed) : e.IsFree where
  name := isReserved_of_hasFreeName h.name
  spine := (optional_iff.1 h.optionals).1
  word := opensWithOperator_of_names (isOperatorWord_of_hasFreeName h.name)
    fun n hn x hx => isOperatorWord_of_hasFreeName (h.names n hn x hx)

/-- No text of an operand begins with an operator's word. -/
theorem opensWithOperator_eq_false (h : e.WellFormed) {n : Expr} (hn : n ∈ e.nodes)
    (hx : x ∈ n.operands) : x.opensWithOperator = false := by
  have hchild := mem_nodes_child hn (mem_children_of_mem_operands hx)
  refine opensWithOperator_of_names (isOperatorWord_of_hasFreeName (h.names n hn x hx)) ?_
  intro m hm y hy
  exact isOperatorWord_of_hasFreeName (h.names m (mem_nodes_trans hchild hm) y hy)

/-- No operator is read where there was none. -/
theorem isMisread_eq_false (h : e.WellFormed) : ∀ n ∈ e.nodes, n.isMisread = false := by
  intro n hn
  cases n with
  | new span callee es =>
    have hword := h.opensWithOperator_eq_false hn (List.mem_cons_self .. : callee ∈ callee :: es)
    rw [isMisread, hword, Bool.and_false]
  | _ => rfl

/-- All nodes of a well-formed tree fit. -/
theorem fits (h : e.WellFormed) : e.AllFit := by
  intro n hn
  refine ⟨?_, ?_, (optional_iff.1 h.optionals).2 n hn, ?_⟩
  · cases n with
    | literal span raw value => exact h.literals span raw value hn
    | identifier span name => exact h.isName hn
    | sequence span es => exact h.sequences span es hn
    | new span callee es => exact h.callees span callee es hn
    | member span object property computed optional =>
      rintro rfl
      obtain ⟨nameSpan, name, rfl, -⟩ := h.properties span object property optional hn
      rfl
    | chain span expression =>
      obtain ⟨top, htop⟩ := exists_at?_of_mem_nodes hn
      exact (hasOptionalLink_iff (at?_child htop rfl)).2 (h.chains top span expression htop).2
    | update span operator leading argument => exact h.updates span operator leading argument hn
    | unary span operator leading argument => exact h.unaries span operator leading argument hn
    | _ => trivial
  · intro x hx
    exact isReserved_of_hasFreeName (h.names n hn x hx)
  · intro x hx
    exact h.opensWithOperator_eq_false hn (mem_operands_of_mem_standalone hx)

end WellFormed

/-! ## Well-shaped trees -/

/-- What may be relied on in every tree that has been read. -/
structure WellShaped (e : Expr) : Prop where
  sequences : ∀ span expressions, sequence span expressions ∈ e.nodes → 2 ≤ expressions.length
  updates : ∀ span operator leading argument, update span operator leading argument ∈ e.nodes →
    argument.isPlace = true
  unaries : ∀ span operator leading argument, unary span operator leading argument ∈ e.nodes →
    leading = true
  properties : ∀ span object property optional,
    member span object property false optional ∈ e.nodes →
    property.isIdentifier = true
  chains : ∀ top span expression, e.at? top = some (chain span expression) →
    expression.isLink = true ∧
      ∃ path link, OnSpine e (top ++ [0]) path ∧ e.at? path = some link ∧ link.isOptional = true
  optionals : ∀ path link, e.at? path = some link → link.isOptional = true →
    ∃! top, InChain e top path
  callees : ∀ top span callee arguments, e.at? top = some (new span callee arguments) →
    callee.isChain = false ∧
      ∀ path link, OnSpine e (top ++ [0]) path → e.at? path = some link → link.isOptional = false
  literals : ∀ span raw value, literal span raw value ∈ e.nodes →
    raw ≠ "" ∧ ∀ number, value = .number number → number.isNaN = false ∧ number.isNegative = false
  name : e.isReserved = false
  names : ∀ n ∈ e.nodes, ∀ x ∈ n.operands, x.isReserved = false

/-- A spelling is not empty, and a number that is spelled is one and has no sign. -/
theorem literal_sound {raw : String} {value : LiteralValue} (h : Spells raw value) :
    raw ≠ "" ∧
      ∀ number, value = .number number → number.isNaN = false ∧ number.isNegative = false := by
  cases h with
  | true => exact ⟨by decide, fun number heq => by cases heq⟩
  | false => exact ⟨by decide, fun number heq => by cases heq⟩
  | null => exact ⟨by decide, fun number heq => by cases heq⟩
  | number hnumeral =>
    refine ⟨?_, ?_⟩
    · rintro rfl
      exact hnumeral.ne_nil rfl
    · intro number heq
      cases heq
      exact Binary64.ofDecimal_sound _

/-- Trees of which all nodes fit are well shaped. -/
theorem wellShaped_of_fits (h : e.AllFit) (hfree : e.IsFree) : e.WellShaped where
  sequences _ _ hn := (h _ hn).shape
  updates _ _ _ _ hn := (h _ hn).shape
  unaries _ _ _ _ hn := (h _ hn).shape
  properties _ _ _ _ hn := (h _ hn).shape rfl
  chains top span expression htop := by
    have hhas : expression.hasOptionalLink = true := (h _ (mem_nodes_of_at? htop)).shape
    exact ⟨isLink_of_hasOptionalLink hhas, (hasOptionalLink_iff (at?_child htop rfl)).1 hhas⟩
  optionals path link hat hoptional := by
    have hspines := optional_iff.2 ⟨hfree.spine, fun n hn => (h n hn).spines⟩
    obtain ⟨top, htop⟩ := hspines path link hat hoptional
    exact ⟨top, htop, fun top' htop' => htop'.top_unique htop⟩
  callees top span callee es htop := by
    have hfits := h _ (mem_nodes_of_at? htop)
    refine ⟨hfits.shape, fun path link hpath hat => Bool.eq_false_iff.2 fun hoptional => ?_⟩
    have hnone : callee.hasOptionalLink = false := hfits.spines callee (List.mem_cons_self ..)
    have hhas := (hasOptionalLink_iff (at?_child htop rfl)).2 ⟨path, link, hpath, hat, hoptional⟩
    rw [hnone] at hhas
    cases hhas
  literals _ _ _ hn := literal_sound (h _ hn).shape
  name := hfree.name
  names n hn := (h n hn).names

/-- What a caller has to see to, node by node. -/
theorem wellFormed_iff : e.WellFormed ↔ e.AllFit ∧ e.hasOptionalLink = false ∧ e.HasFreeName ∧
    ∀ n ∈ e.nodes, ∀ x ∈ n.operands, x.HasFreeName := by
  refine ⟨fun h => ⟨h.fits, h.isFree.spine, h.name, h.names⟩, ?_⟩
  rintro ⟨hfits, hspine, hname, hnames⟩
  -- A free name is no word of an operator either, so the tree is also well shaped, and most fields
  -- are those of `WellShaped`.
  have hword := opensWithOperator_of_names (isOperatorWord_of_hasFreeName hname)
    fun n hn x hx => isOperatorWord_of_hasFreeName (hnames n hn x hx)
  have hshaped := wellShaped_of_fits hfits ⟨isReserved_of_hasFreeName hname, hspine, hword⟩
  exact {
    literals := fun _ _ _ hn => (hfits _ hn).shape
    name := hname
    names := hnames
    properties := fun span object property optional hn => by
      have hidentifier := hshaped.properties _ _ _ _ hn
      have hproperty :=
        mem_nodes_child hn (List.mem_cons_of_mem _ (List.mem_singleton_self property))
      cases property with
      | identifier nameSpan name => exact ⟨nameSpan, name, rfl, (hfits _ hproperty).shape⟩
      | _ => cases hidentifier
    sequences := hshaped.sequences
    unaries := hshaped.unaries
    updates := hshaped.updates
    chains := hshaped.chains
    optionals := fun path link hat hoptional => (hshaped.optionals path link hat hoptional).exists
    callees := fun _ _ _ hn => (hfits _ hn).shape }

end Expr

end Estree
