import Estree.Expr

/-!
# Nodes of a tree

A tree holds others in lists and in elements that may be holes, and Lean's own induction on it has a
case for each of these. `Expr.induction` has one case for all nodes: something holds of a node if it
holds of the nodes right below it, wherever they are kept. All inductions over trees in the project
are of this form, and `forall_mem_nodes_iff` puts a statement about all nodes into it.

A node is also reached by a path, which tells apart two places where the same tree stands: each step
is the index of a node among those right below another one (`at?`). The nodes of a tree are those at
the ends of its paths (`mem_nodes_of_at?`, `exists_at?_of_mem_nodes`).

`operands` are the nodes right below a node apart from the name of a member access, which is an
identifier that is never read as an expression.
-/

namespace Estree

namespace Expr

variable {e child : Expr}

/-! ## Induction -/

/-- An element of an array that is no hole is smaller than the array. -/
theorem sizeOf_lt_of_mem_filterMap {elements : List (Option Expr)}
    (h : child ∈ elements.filterMap id) : sizeOf child < sizeOf elements := by
  obtain ⟨slot, hslot, hchild⟩ := List.mem_filterMap.1 h
  have hsize := List.sizeOf_lt_of_mem hslot
  have hsome : slot = some child := hchild
  rw [hsome, Option.some.sizeOf_spec] at hsize
  omega

/-- A node is larger than the nodes below it. -/
theorem sizeOf_lt_of_mem_children (h : child ∈ e.children) : sizeOf child < sizeOf e := by
  cases e with
  | array span elements =>
    have hsize := sizeOf_lt_of_mem_filterMap h
    rw [array.sizeOf_spec]
    omega
  | sequence span es =>
    have hsize := List.sizeOf_lt_of_mem (show child ∈ es from h)
    rw [sequence.sizeOf_spec]
    omega
  | new span callee es =>
    rw [new.sizeOf_spec]
    rcases List.mem_cons.1 h with rfl | hes
    · omega
    · have hsize := List.sizeOf_lt_of_mem hes
      omega
  | call span callee es optional =>
    rw [call.sizeOf_spec]
    rcases List.mem_cons.1 h with rfl | hes
    · omega
    · have hsize := List.sizeOf_lt_of_mem hes
      omega
  | literal | identifier | this => exact absurd h List.not_mem_nil
  | chain | update | unary =>
    obtain rfl := List.mem_singleton.1 h
    simp only [chain.sizeOf_spec, update.sizeOf_spec, unary.sizeOf_spec]
    omega
  | member | binary | logical =>
    simp only [children, List.mem_cons, List.not_mem_nil, or_false] at h
    simp only [member.sizeOf_spec, binary.sizeOf_spec, logical.sizeOf_spec]
    rcases h with rfl | rfl <;> omega
  | conditional =>
    simp only [children, List.mem_cons, List.not_mem_nil, or_false] at h
    simp only [conditional.sizeOf_spec]
    rcases h with rfl | rfl | rfl <;> omega

/-- What holds of a node whenever it holds of the nodes right below it holds of all trees. -/
theorem induction {P : Expr → Prop} (h : ∀ e, (∀ child ∈ e.children, P child) → P e) (e : Expr) :
    P e :=
  h e fun child _ => induction h child
termination_by sizeOf e
decreasing_by exact sizeOf_lt_of_mem_children (by assumption)

/-! ## All nodes -/

/-- The nodes of several trees, without the nested recursion. -/
theorem nodesOfList_eq (es : List Expr) : nodesOfList es = es.flatMap nodes := by
  induction es with
  | nil => rfl
  | cons e rest ih => rw [nodesOfList, ih, List.flatMap_cons]

/-- Those of the elements of an array, where holes have none. -/
theorem nodesOfSlots_eq (elements : List (Option Expr)) :
    nodesOfSlots elements = (elements.filterMap id).flatMap nodes := by
  induction elements with
  | nil => rfl
  | cons slot rest ih =>
    cases slot with
    | none => rw [nodesOfSlots, ih]; rfl
    | some e => rw [nodesOfSlots, ih]; rfl

/-- The nodes of a tree are its root and the nodes of the trees below it. -/
theorem nodes_eq (e : Expr) : e.nodes = e :: e.children.flatMap nodes := by
  cases e with
  | array span elements => rw [nodes, nodesOfSlots_eq, children]
  | sequence span es => rw [nodes, nodesOfList_eq, children]
  | new span callee es => rw [nodes, nodesOfList_eq, children, List.flatMap_cons]
  | call span callee es optional => rw [nodes, nodesOfList_eq, children, List.flatMap_cons]
  | _ => simp [nodes, children]

/-- The tree is the first of its nodes. -/
theorem mem_nodes_self (e : Expr) : e ∈ e.nodes := by
  rw [nodes_eq]
  exact List.mem_cons_self ..

/-- Something holds of all nodes if it holds of the root and of all nodes of the trees below. -/
theorem forall_mem_nodes_iff {P : Expr → Prop} :
    (∀ n ∈ e.nodes, P n) ↔ P e ∧ ∀ child ∈ e.children, ∀ n ∈ child.nodes, P n := by
  rw [nodes_eq, List.forall_mem_cons]
  refine and_congr_right fun _ => ?_
  constructor
  · intro h child hchild n hn
    exact h n (List.mem_flatMap.2 ⟨child, hchild, hn⟩)
  · intro h n hn
    obtain ⟨child, hchild, hn⟩ := List.mem_flatMap.1 hn
    exact h child hchild n hn

theorem mem_nodes_of_mem_children {n : Expr} (hchild : child ∈ e.children) (hn : n ∈ child.nodes) :
    n ∈ e.nodes := by
  rw [nodes_eq]
  exact List.mem_cons_of_mem _ (List.mem_flatMap.2 ⟨child, hchild, hn⟩)

/-- Every node but the root stands right below another one. -/
theorem eq_or_mem_children_of_mem_nodes {n : Expr} (h : n ∈ e.nodes) :
    n = e ∨ ∃ m ∈ e.nodes, n ∈ m.children := by
  induction e using Expr.induction with
  | h e ih =>
    rw [nodes_eq] at h
    rcases List.mem_cons.1 h with rfl | h
    · exact Or.inl rfl
    · obtain ⟨child, hchild, hn⟩ := List.mem_flatMap.1 h
      rcases ih child hchild hn with rfl | ⟨m, hm, hn⟩
      · exact Or.inr ⟨e, mem_nodes_self e, hchild⟩
      · exact Or.inr ⟨m, mem_nodes_of_mem_children hchild hm, hn⟩

/-- The nodes of a tree below are nodes of the whole tree. -/
theorem mem_nodes_trans {m n : Expr} (hm : m ∈ e.nodes) (hn : n ∈ m.nodes) : n ∈ e.nodes := by
  induction e using Expr.induction with
  | h e ih =>
    rw [nodes_eq] at hm
    rcases List.mem_cons.1 hm with rfl | hm
    · exact hn
    · obtain ⟨child, hchild, hm⟩ := List.mem_flatMap.1 hm
      exact mem_nodes_of_mem_children hchild (ih child hchild hm)

/-- What is right below a node is one as well. -/
theorem mem_nodes_child {n : Expr} (hn : n ∈ e.nodes) (hchild : child ∈ n.children) :
    child ∈ e.nodes :=
  mem_nodes_trans hn (mem_nodes_of_mem_children hchild (mem_nodes_self child))

/-! ## Operands and paths -/

/-- The nodes right below a node, apart from the name of a member access. -/
def operands : Expr → List Expr
  | member _ object _ false _ => [object]
  | e => e.children

/-- The node at the end of a path, of which each step is the place of a node among those right below
another one. -/
def at? : Expr → List Nat → Option Expr
  | e, [] => some e
  | e, i :: path => e.children[i]?.bind fun child => child.at? path

theorem mem_children_of_mem_operands (h : child ∈ e.operands) : child ∈ e.children := by
  unfold operands at h
  split at h
  next =>
    obtain rfl := List.mem_singleton.1 h
    exact List.mem_cons_self ..
  next => exact h

/-- A path leads to a node of the tree. -/
theorem mem_nodes_of_at? {path : List Nat} {n : Expr} (h : e.at? path = some n) : n ∈ e.nodes := by
  induction path generalizing e with
  | nil =>
    cases h
    exact mem_nodes_self _
  | cons i path ih =>
    obtain ⟨child, hchild, h⟩ := Option.bind_eq_some_iff.1 h
    exact mem_nodes_of_mem_children (List.mem_of_getElem? hchild) (ih h)

/-- Every node of the tree is at the end of a path. -/
theorem exists_at?_of_mem_nodes {n : Expr} (h : n ∈ e.nodes) :
    ∃ path, e.at? path = some n := by
  induction e using Expr.induction with
  | h e ih =>
    rw [nodes_eq] at h
    rcases List.mem_cons.1 h with rfl | h
    · exact ⟨[], rfl⟩
    · obtain ⟨child, hchild, hn⟩ := List.mem_flatMap.1 h
      obtain ⟨path, hpath⟩ := ih child hchild hn
      obtain ⟨i, hi⟩ := List.mem_iff_getElem?.1 hchild
      exact ⟨i :: path, by rw [at?, hi]; exact hpath⟩

/-- A path in two parts. -/
theorem at?_append (e : Expr) (first second : List Nat) :
    e.at? (first ++ second) = (e.at? first).bind fun n => n.at? second := by
  induction first generalizing e with
  | nil => rfl
  | cons i first ih =>
    rw [List.cons_append, at?, at?]
    cases e.children[i]? with
    | none => rfl
    | some child => exact ih child

end Expr

end Estree
