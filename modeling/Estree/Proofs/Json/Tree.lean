import Estree.Json.Tree
import Estree.Proofs.Expr.Nodes
import Estree.Proofs.Json.Blanks

/-!
# Trees are read back from their JSON

> `Expr.compact_toJson_eq_iff`: two trees with finite numbers have the same compact JSON only if
> they are the same, spans and spellings included.

The text determines the JSON value (`Json.compact_inj`), and the value the tree (`Expr.toJson_inj`).
For the second part the members of an object stand in order: the type comes first and tells which
members follow, and the span comes last (`Json.node_inj`). A hole is the only element that is no
object, and operators are found again by their spellings.

Finite numbers in the tree are finite numbers in the JSON (`allFinite_toJson`). The condition is
needed, since other numbers have no text of their own: they are all written as `null`.
-/

namespace Estree

/-- The type, the members and the span of a node are told by its object. -/
theorem Json.node_inj {type type' : String} {members members' : List (String × Json)}
    {span span' : Span} (h : Json.node type members span = Json.node type' members' span') :
    type = type' ∧ members = members' ∧ span = span' := by
  obtain ⟨htype, hrest⟩ := List.cons.inj (Json.object.inj h)
  obtain ⟨hmembers, hspan⟩ := List.append_inj' hrest rfl
  simp only [List.cons.injEq, Prod.mk.injEq, Json.natural.injEq, true_and, and_true] at hspan
  obtain ⟨start, stop⟩ := span
  obtain ⟨start', stop'⟩ := span'
  refine ⟨?_, hmembers, ?_⟩
  · exact Json.string.inj (Prod.mk.inj htype).2
  · rw [Span.mk.injEq]
    exact hspan

theorem Json.allFiniteMembers_iff {members : List (String × Json)} :
    AllFiniteMembers members ↔ ∀ member ∈ members, member.2.AllFinite := by
  induction members with
  | nil => exact ⟨fun _ _ => nofun, fun _ => trivial⟩
  | cons member rest ih =>
    rw [List.forall_mem_cons, ← ih]
    rfl

/-- A span has no numbers that are not finite. -/
theorem Json.allFinite_node {type : String} {members : List (String × Json)} {span : Span}
    (h : ∀ member ∈ members, member.2.AllFinite) : (node type members span).AllFinite := by
  refine allFiniteMembers_iff.2 fun member hmember => ?_
  rcases List.mem_cons.1 hmember with rfl | hmember
  · trivial
  · rcases List.mem_append.1 hmember with hmember | hmember
    · exact h member hmember
    · simp only [List.mem_cons, List.not_mem_nil, or_false] at hmember
      rcases hmember with rfl | rfl <;> trivial

/-- Values of literals are told by their JSON. -/
theorem LiteralValue.toJson_inj {v w : LiteralValue} (h : v.toJson = w.toJson) : v = w := by
  cases v <;> cases w <;> cases h <;> rfl

/-- Operators are told by their spellings. -/
theorem UpdateOperator.text_inj {o p : UpdateOperator} (h : o.text = p.text) : o = p :=
  Option.some.inj ((ofText?_text o).symm.trans (h ▸ ofText?_text p))

theorem UnaryOperator.text_inj {o p : UnaryOperator} (h : o.text = p.text) : o = p :=
  Option.some.inj ((ofText?_text o).symm.trans (h ▸ ofText?_text p))

theorem BinaryOperator.text_inj {o p : BinaryOperator} (h : o.text = p.text) : o = p :=
  Option.some.inj ((ofText?_text o).symm.trans (h ▸ ofText?_text p))

theorem LogicalOperator.text_inj {o p : LogicalOperator} (h : o.text = p.text) : o = p :=
  Option.some.inj ((ofText?_text o).symm.trans (h ▸ ofText?_text p))

namespace Expr

/-- A tree is an object with its type first and its span last. -/
theorem exists_toJson_eq_node (e : Expr) :
    ∃ members, e.toJson = .node e.type members e.span := by
  cases e <;> exact ⟨_, rfl⟩

/-- A tree is no hole. -/
theorem toJson_ne_null (e : Expr) : e.toJson ≠ .null := by
  obtain ⟨members, h⟩ := e.exists_toJson_eq_node
  rw [h]
  exact nofun

/-- Lists of trees are told apart if the trees are. -/
theorem toJsonList_inj {es fs : List Expr}
    (ih : ∀ e ∈ es, ∀ f : Expr, e.toJson = f.toJson → e = f)
    (h : toJsonList es = toJsonList fs) : es = fs := by
  induction es generalizing fs with
  | nil =>
    cases fs with
    | nil => rfl
    | cons f fs => cases h
  | cons e es ihrest =>
    cases fs with
    | nil => cases h
    | cons f fs =>
      obtain ⟨hfirst, hrest⟩ := List.cons.inj h
      rw [ih e List.mem_cons_self f hfirst,
        ihrest (fun e he => ih e (List.mem_cons_of_mem _ he)) hrest]

/-- So are lists of elements with holes among them. -/
theorem toJsonSlots_inj {es fs : List (Option Expr)}
    (ih : ∀ e, some e ∈ es → ∀ f : Expr, e.toJson = f.toJson → e = f)
    (h : toJsonSlots es = toJsonSlots fs) : es = fs := by
  induction es generalizing fs with
  | nil =>
    cases fs with
    | nil => rfl
    | cons f fs => cases f <;> cases h
  | cons slot es ihrest =>
    cases fs with
    | nil => cases slot <;> cases h
    | cons slot' fs =>
      have hlater : ∀ e, some e ∈ es → ∀ f : Expr, e.toJson = f.toJson → e = f := fun e he =>
        ih e (List.mem_cons_of_mem _ he)
      cases slot with
      | none =>
        cases slot' with
        | none => rw [ihrest hlater (List.cons.inj h).2]
        | some f => exact absurd (List.cons.inj h).1.symm f.toJson_ne_null
      | some e =>
        cases slot' with
        | none => exact absurd (List.cons.inj h).1 e.toJson_ne_null
        | some f =>
          obtain ⟨hfirst, hrest⟩ := List.cons.inj h
          rw [ih e List.mem_cons_self f hfirst, ihrest hlater hrest]

/-- The JSON of a tree determines it. -/
theorem toJson_inj {e f : Expr} (h : e.toJson = f.toJson) : e = f := by
  induction e using Expr.induction generalizing f with
  | h e ih =>
    -- The type tells the constructor, and the members give its fields one by one.
    have htype : e.type = f.type := by
      obtain ⟨members, he⟩ := e.exists_toJson_eq_node
      obtain ⟨members', hf⟩ := f.exists_toJson_eq_node
      exact (Json.node_inj (he.symm.trans (h.trans hf))).1
    cases e with
    | literal span raw value =>
      cases f with
      | literal span' raw' value' =>
        obtain ⟨-, hmembers, rfl⟩ := Json.node_inj h
        simp only [List.cons.injEq, Prod.mk.injEq, Json.string.injEq, true_and, and_true]
          at hmembers
        rw [hmembers.1, LiteralValue.toJson_inj hmembers.2]
      | _ => exact absurd htype (by simp [type])
    | identifier span name =>
      cases f with
      | identifier span' name' =>
        obtain ⟨-, hmembers, rfl⟩ := Json.node_inj h
        simp only [List.cons.injEq, Prod.mk.injEq, Json.string.injEq, true_and, and_true]
          at hmembers
        rw [hmembers]
      | _ => exact absurd htype (by simp [type])
    | this span =>
      cases f with
      | this span' =>
        obtain ⟨-, -, rfl⟩ := Json.node_inj h
        rfl
      | _ => exact absurd htype (by simp [type])
    | array span elements =>
      cases f with
      | array span' elements' =>
        obtain ⟨-, hmembers, rfl⟩ := Json.node_inj h
        simp only [List.cons.injEq, Prod.mk.injEq, Json.array.injEq, true_and, and_true] at hmembers
        rw [toJsonSlots_inj (fun e he _ => ih e (List.mem_filterMap.2 ⟨some e, he, rfl⟩)) hmembers]
      | _ => exact absurd htype (by simp [type])
    | sequence span expressions =>
      cases f with
      | sequence span' expressions' =>
        obtain ⟨-, hmembers, rfl⟩ := Json.node_inj h
        simp only [List.cons.injEq, Prod.mk.injEq, Json.array.injEq, true_and, and_true] at hmembers
        have hlist : expressions = expressions' := toJsonList_inj (fun e he _ => ih e he) hmembers
        rw [hlist]
      | _ => exact absurd htype (by simp [type])
    | conditional span test consequent alternate =>
      cases f with
      | conditional span' test' consequent' alternate' =>
        obtain ⟨-, hmembers, rfl⟩ := Json.node_inj h
        simp only [List.cons.injEq, Prod.mk.injEq, true_and, and_true] at hmembers
        rw [ih test (by simp [children]) hmembers.1,
          ih consequent (by simp [children]) hmembers.2.1,
          ih alternate (by simp [children]) hmembers.2.2]
      | _ => exact absurd htype (by simp [type])
    | new span callee arguments =>
      cases f with
      | new span' callee' arguments' =>
        obtain ⟨-, hmembers, rfl⟩ := Json.node_inj h
        simp only [List.cons.injEq, Prod.mk.injEq, Json.array.injEq, true_and, and_true] at hmembers
        rw [ih callee List.mem_cons_self hmembers.1,
          toJsonList_inj (fun e he _ => ih e (List.mem_cons_of_mem _ he)) hmembers.2]
      | _ => exact absurd htype (by simp [type])
    | call span callee arguments optional =>
      cases f with
      | call span' callee' arguments' optional' =>
        obtain ⟨-, hmembers, rfl⟩ := Json.node_inj h
        simp only [List.cons.injEq, Prod.mk.injEq, Json.array.injEq, Json.boolean.injEq, true_and,
          and_true] at hmembers
        rw [ih callee List.mem_cons_self hmembers.1,
          toJsonList_inj (fun e he _ => ih e (List.mem_cons_of_mem _ he)) hmembers.2.1,
          hmembers.2.2]
      | _ => exact absurd htype (by simp [type])
    | member span object property computed optional =>
      cases f with
      | member span' object' property' computed' optional' =>
        obtain ⟨-, hmembers, rfl⟩ := Json.node_inj h
        simp only [List.cons.injEq, Prod.mk.injEq, Json.boolean.injEq, true_and, and_true]
          at hmembers
        rw [ih object (by simp [children]) hmembers.1,
          ih property (by simp [children]) hmembers.2.1, hmembers.2.2.1, hmembers.2.2.2]
      | _ => exact absurd htype (by simp [type])
    | chain span expression =>
      cases f with
      | chain span' expression' =>
        obtain ⟨-, hmembers, rfl⟩ := Json.node_inj h
        simp only [List.cons.injEq, Prod.mk.injEq, true_and, and_true] at hmembers
        rw [ih expression (by simp [children]) hmembers]
      | _ => exact absurd htype (by simp [type])
    | update span operator leading argument =>
      cases f with
      | update span' operator' leading' argument' =>
        obtain ⟨-, hmembers, rfl⟩ := Json.node_inj h
        simp only [List.cons.injEq, Prod.mk.injEq, Json.string.injEq, Json.boolean.injEq, true_and,
          and_true] at hmembers
        rw [UpdateOperator.text_inj hmembers.1, hmembers.2.1,
          ih argument (by simp [children]) hmembers.2.2]
      | _ => exact absurd htype (by simp [type])
    | unary span operator leading argument =>
      cases f with
      | unary span' operator' leading' argument' =>
        obtain ⟨-, hmembers, rfl⟩ := Json.node_inj h
        simp only [List.cons.injEq, Prod.mk.injEq, Json.string.injEq, Json.boolean.injEq, true_and,
          and_true] at hmembers
        rw [UnaryOperator.text_inj hmembers.1, hmembers.2.1,
          ih argument (by simp [children]) hmembers.2.2]
      | _ => exact absurd htype (by simp [type])
    | binary span operator left right =>
      cases f with
      | binary span' operator' left' right' =>
        obtain ⟨-, hmembers, rfl⟩ := Json.node_inj h
        simp only [List.cons.injEq, Prod.mk.injEq, Json.string.injEq, true_and, and_true]
          at hmembers
        rw [BinaryOperator.text_inj hmembers.1, ih left (by simp [children]) hmembers.2.1,
          ih right (by simp [children]) hmembers.2.2]
      | _ => exact absurd htype (by simp [type])
    | logical span operator left right =>
      cases f with
      | logical span' operator' left' right' =>
        obtain ⟨-, hmembers, rfl⟩ := Json.node_inj h
        simp only [List.cons.injEq, Prod.mk.injEq, Json.string.injEq, true_and, and_true]
          at hmembers
        rw [LogicalOperator.text_inj hmembers.1, ih left (by simp [children]) hmembers.2.1,
          ih right (by simp [children]) hmembers.2.2]
      | _ => exact absurd htype (by simp [type])

/-! ## Finite numbers -/

/-- All numeric literals of the tree have finite values. -/
def HasFiniteNumbers (e : Expr) : Prop :=
  ∀ span raw value, .literal span raw (.number value) ∈ e.nodes → value.isFinite = true

/-- What holds of all literals holds of those in a part of the tree. -/
theorem HasFiniteNumbers.child {e child : Expr} (h : e.HasFiniteNumbers)
    (hchild : child ∈ e.children) : child.HasFiniteNumbers :=
  fun span raw value hn => h span raw value (mem_nodes_of_mem_children hchild hn)

/-- Trees with finite numbers are items with finite numbers. -/
theorem allFinite_toJsonList {es : List Expr} (h : ∀ e ∈ es, e.toJson.AllFinite) :
    Json.AllFiniteItems (toJsonList es) := by
  induction es with
  | nil => trivial
  | cons e es ih =>
    exact ⟨h e List.mem_cons_self, ih fun f hf => h f (List.mem_cons_of_mem _ hf)⟩

/-- So are elements, where a hole has no number. -/
theorem allFinite_toJsonSlots {es : List (Option Expr)}
    (h : ∀ e, some e ∈ es → e.toJson.AllFinite) : Json.AllFiniteItems (toJsonSlots es) := by
  induction es with
  | nil => trivial
  | cons slot es ih =>
    have hlater := ih fun f hf => h f (List.mem_cons_of_mem _ hf)
    cases slot with
    | none => exact ⟨trivial, hlater⟩
    | some e => exact ⟨h e List.mem_cons_self, hlater⟩

/-- The JSON of a tree with finite numbers has finite numbers. -/
theorem HasFiniteNumbers.allFinite_toJson {e : Expr} (h : e.HasFiniteNumbers) :
    e.toJson.AllFinite := by
  induction e using Expr.induction with
  | h e ih =>
    have hbelow : ∀ child ∈ e.children, child.toJson.AllFinite := fun child hchild =>
      ih child hchild (h.child hchild)
    cases e with
    | literal span raw value =>
      refine Json.allFinite_node ?_
      cases value with
      | number value =>
        have hfinite := h span raw value (mem_nodes_self _)
        simp [LiteralValue.toJson, Json.AllFinite, hfinite]
      | boolean value => simp [LiteralValue.toJson, Json.AllFinite]
      | null => simp [LiteralValue.toJson, Json.AllFinite]
    | array span elements =>
      have helements := allFinite_toJsonSlots fun e he =>
        hbelow e (List.mem_filterMap.2 ⟨some e, he, rfl⟩)
      refine Json.allFinite_node ?_
      simp [Json.AllFinite, helements]
    | sequence span expressions =>
      have hexpressions : Json.AllFiniteItems (toJsonList expressions) :=
        allFinite_toJsonList hbelow
      refine Json.allFinite_node ?_
      simp [Json.AllFinite, hexpressions]
    | new span callee arguments =>
      rw [children, List.forall_mem_cons] at hbelow
      refine Json.allFinite_node ?_
      simp [Json.AllFinite, hbelow.1, allFinite_toJsonList hbelow.2]
    | call span callee arguments optional =>
      rw [children, List.forall_mem_cons] at hbelow
      refine Json.allFinite_node ?_
      simp [Json.AllFinite, hbelow.1, allFinite_toJsonList hbelow.2]
    | _ =>
      refine Json.allFinite_node ?_
      simp_all [children, Json.AllFinite]

/-- Two trees with finite numbers have the same compact JSON only if they are the same, bit for bit;
and the indented JSON of every tree differs from the compact one in blanks outside strings only. -/
theorem compact_toJson_eq_iff :
    (∀ e f : Expr, e.HasFiniteNumbers → f.HasFiniteNumbers →
      (e.toJson.compact = f.toJson.compact ↔ e = f)) ∧
    ∀ e : Expr, Json.withoutBlanks e.toJson.pretty = Json.withoutBlanks e.toJson.compact := by
  refine ⟨fun e f he hf => ⟨fun h => ?_, fun h => by rw [h]⟩, fun e => ?_⟩
  · exact toJson_inj (Json.compact_inj he.allFinite_toJson hf.allFinite_toJson h)
  · rw [Json.withoutBlanks_pretty, Json.withoutBlanks_compact]

/-- A hole and a literal `null` are different elements, and so are the two zeros. -/
theorem compact_toJson_eq_iff_holes :
    (array ⟨0, 3⟩ [none]).toJson.compact ≠
        (array ⟨0, 3⟩ [some (literal ⟨0, 0⟩ "" .null)]).toJson.compact ∧
      (literal ⟨0, 1⟩ "0" (.number ⟨0⟩)).toJson.compact ≠
        (literal ⟨0, 1⟩ "0" (.number ⟨0x8000000000000000⟩)).toJson.compact := by
  have hnull {slot : Option Expr} (h : slot = none ∨ slot = some (literal ⟨0, 0⟩ "" .null)) :
      (array ⟨0, 3⟩ [slot]).HasFiniteNumbers := by
    intro span raw value hn
    rcases h with rfl | rfl <;> simp [nodes, nodesOfSlots] at hn
  have hzero {value : Binary64} (h : value.isFinite = true) :
      (literal ⟨0, 1⟩ "0" (.number value)).HasFiniteNumbers := by
    intro span raw value' hn
    simp only [nodes, List.mem_singleton, literal.injEq, LiteralValue.number.injEq] at hn
    rw [hn.2.2, h]
  refine ⟨?_, ?_⟩
  · rw [ne_eq, compact_toJson_eq_iff.1 _ _ (hnull (.inl rfl)) (hnull (.inr rfl))]
    intro heq
    cases heq
  · rw [ne_eq, compact_toJson_eq_iff.1 _ _ (hzero (by decide)) (hzero (by decide))]
    intro heq
    cases heq

end Expr

end Estree
