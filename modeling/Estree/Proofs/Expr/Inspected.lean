import Estree.Proofs.Expr.Nodes

/-!
# Nodes in the order of writing

A node is looked at before the nodes below it are written, but for an access by name: its object is
written first, and only then is the name found to be one or not. Which of several defects is
reported depends on this order, and nothing else does.

`inspected` lists the nodes of a tree in it, and `mem_inspected_iff` says that they are the nodes of
the tree: an induction in which each node and those right below it are the same in either list
(`mem_inspected`).
-/

namespace Estree

namespace Expr

mutual

/-- All nodes of a tree in the order in which the writing looks at them. -/
def inspected : Expr → List Expr
  | e@(literal ..) | e@(identifier ..) | e@(this _) => [e]
  | e@(array _ elements) => e :: inspectedOfSlots elements
  | e@(sequence _ expressions) => e :: inspectedOfList expressions
  | e@(conditional _ test consequent alternate) =>
    e :: (test.inspected ++ consequent.inspected ++ alternate.inspected)
  | e@(new _ callee arguments) | e@(call _ callee arguments _) =>
    e :: (callee.inspected ++ inspectedOfList arguments)
  | e@(member _ object property true _) => e :: (object.inspected ++ property.inspected)
  | e@(member _ object property false _) => object.inspected ++ e :: property.inspected
  | e@(chain _ expression) => e :: expression.inspected
  | e@(update _ _ _ argument) | e@(unary _ _ _ argument) => e :: argument.inspected
  | e@(binary _ _ left right) | e@(logical _ _ left right) =>
    e :: (left.inspected ++ right.inspected)

/-- The nodes of the trees of a list, in this order. -/
def inspectedOfList : List Expr → List Expr
  | [] => []
  | e :: rest => e.inspected ++ inspectedOfList rest

/-- The nodes of the elements of an array, in this order. -/
def inspectedOfSlots : List (Option Expr) → List Expr
  | [] => []
  | none :: rest => inspectedOfSlots rest
  | some e :: rest => e.inspected ++ inspectedOfSlots rest

end

variable {n : Expr}

/-- The nodes of several trees are those of each of them. -/
theorem mem_inspectedOfList {es : List Expr} :
    n ∈ inspectedOfList es ↔ ∃ x ∈ es, n ∈ x.inspected := by
  induction es with
  | nil => simp [inspectedOfList]
  | cons e rest ih => simp [inspectedOfList, ih]

/-- So they are for the elements of an array. -/
theorem mem_inspectedOfSlots {elements : List (Option Expr)} :
    n ∈ inspectedOfSlots elements ↔ ∃ x ∈ elements.filterMap id, n ∈ x.inspected := by
  induction elements with
  | nil => simp [inspectedOfSlots]
  | cons slot rest ih => cases slot <;> simp [inspectedOfSlots, ih]

/-- What is looked at is the node itself, and what is looked at below it. -/
theorem mem_inspected {e : Expr} :
    n ∈ e.inspected ↔ n = e ∨ ∃ child ∈ e.children, n ∈ child.inspected := by
  cases e with
  | array span elements => simp [inspected, mem_inspectedOfSlots, children]
  | sequence span es => simp [inspected, mem_inspectedOfList, children]
  | new span callee es | call span callee es => simp [inspected, mem_inspectedOfList, children]
  | member span object property computed optional =>
    cases computed with
    | true => simp [inspected, children]
    | false => simp [inspected, children, or_left_comm]
  | _ => simp [inspected, children]

/-- All nodes of a tree are looked at, and nothing else. -/
theorem mem_inspected_iff {e : Expr} : n ∈ e.inspected ↔ n ∈ e.nodes := by
  induction e using Expr.induction with
  | h e ih =>
    rw [mem_inspected, nodes_eq, List.mem_cons, List.mem_flatMap]
    exact or_congr_right (exists_congr fun child => and_congr_right fun hchild => ih child hchild)

end Expr

end Estree
