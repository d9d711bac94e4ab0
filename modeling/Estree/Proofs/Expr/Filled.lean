import Estree.Proofs.Expr.Shape
import Estree.Proofs.Expr.Spans
import Estree.Proofs.Expr.Views

/-!
# Trees with an identifier replaced

Another tree can stand in for an identifier at most places, but not at all of them: the name after a
point, what is updated and what `new` calls are read in their own way (`fixed`), and there `filled`
keeps the identifier as it is.

> `not_sameAs_filled`: everywhere else the tree with another one in place of the identifier is
> another tree. So a reading that yields the tree as it was has not come upon the identifier.

It is an induction over the tree along the operands: the identifier is below one of them, so that
this operand changes, and operands are compared one by one (`operands_filled`).
-/

namespace Estree

namespace Expr

variable {e child : Expr} {hole : Hole} {span s : Span} {name : String}

/-- The nodes right below a node that no other expression may stand in for: the name of a member
access, what is updated, and what `new` calls. -/
def fixed : Expr → List Expr
  | member _ _ property false _ => [property]
  | update _ _ _ argument => [argument]
  | new _ callee _ => [callee]
  | _ => []

/-- The operands of a tree without spans. -/
theorem operands_unplaced (e : Expr) : e.unplaced.operands = e.operands.map unplaced := by
  cases e with
  | array span elements =>
    show (unplacedSlots elements).filterMap id = (elements.filterMap id).map unplaced
    rw [unplacedSlots_eq_map, List.filterMap_map, List.map_filterMap]
    rfl
  | sequence span es =>
    show unplacedList es = es.map unplaced
    rw [unplacedList_eq_map]
  | new span callee es | call span callee es =>
    show callee.unplaced :: unplacedList es = (callee :: es).map unplaced
    rw [unplacedList_eq_map, List.map_cons]
  | member span object property computed => cases computed <;> rfl
  | _ => rfl

/-- The operands of a node that keeps nothing of what is replaced. -/
theorem operands_filled (hself : hole.isAt e = false)
    (hfixed : ∀ n ∈ e.fixed, hole.isAt n = false) :
    (e.filled hole).operands = e.operands.map (filled hole) := by
  cases e with
  | identifier span name =>
    have hne : ¬(span == hole.span) = true := Bool.eq_false_iff.1 hself
    rw [filled, if_neg hne]
    rfl
  | array span elements =>
    show (filledSlots hole elements).filterMap id = (elements.filterMap id).map (filled hole)
    rw [filledSlots_eq_map, List.filterMap_map, List.map_filterMap]
    rfl
  | sequence span es =>
    show filledList hole es = es.map (filled hole)
    rw [filledList_eq_map]
  | new span callee es =>
    have hcallee := hfixed callee (List.mem_singleton_self callee)
    rw [filled, if_neg (Bool.eq_false_iff.1 hcallee)]
    show callee.filled hole :: filledList hole es = (callee :: es).map (filled hole)
    rw [filledList_eq_map, List.map_cons]
  | call span callee es =>
    show callee.filled hole :: filledList hole es = (callee :: es).map (filled hole)
    rw [filledList_eq_map, List.map_cons]
  | update span operator leading argument =>
    have hargument := hfixed argument (List.mem_singleton_self argument)
    rw [filled, if_neg (Bool.eq_false_iff.1 hargument)]
    rfl
  | member span object property computed => cases computed <;> rfl
  | _ => rfl

/-- Only names of member accesses are no operands. -/
theorem mem_operands_or (hshape : e.HasShape) (hchild : child ∈ e.children) :
    child ∈ e.operands ∨ child ∈ e.fixed ∧ child.isIdentifier = true := by
  cases e with
  | member span object property computed optional =>
    cases computed with
    | true => exact Or.inl hchild
    | false =>
      rcases List.mem_cons.1 hchild with rfl | hproperty
      · exact Or.inl (List.mem_singleton_self _)
      · obtain rfl := List.mem_singleton.1 hproperty
        exact Or.inr ⟨List.mem_singleton_self _, hshape rfl⟩
  | _ => exact Or.inl hchild

/-- There is nothing below an identifier. -/
theorem children_of_isIdentifier (h : e.isIdentifier = true) : e.children = [] := by
  cases e with
  | identifier => rfl
  | _ => cases h

/-- With `this` in the place of an identifier that no node keeps, a tree is another one. -/
theorem not_sameAs_filled (hfit : e.AllFit) (hn : identifier span name ∈ e.nodes)
    (hfixed : ∀ m ∈ e.nodes, ∀ n ∈ m.fixed, Hole.isAt ⟨span, this s⟩ n = false) :
    ¬(e.filled ⟨span, this s⟩).SameAs e := by
  induction e using Expr.induction with
  | h e ih =>
    intro hsame
    by_cases hself : Hole.isAt ⟨span, this s⟩ e = true
    · cases e with
      | identifier span' name' =>
        have hspan : (span' == span) = true := hself
        rw [filled, if_pos hspan] at hsame
        cases hsame
      | _ => cases hself
    · have hoperands := congrArg operands hsame
      rw [operands_unplaced, operands_unplaced, operands_filled (Bool.eq_false_iff.2 hself)
        (hfixed e (mem_nodes_self e)), List.map_map, List.map_inj_left] at hoperands
      rw [nodes_eq] at hn
      rcases List.mem_cons.1 hn with rfl | hn
      · exact hself (beq_self_eq_true span)
      · obtain ⟨child, hchild, hn⟩ := List.mem_flatMap.1 hn
        rcases mem_operands_or (hfit e (mem_nodes_self e)).shape hchild with
          hoperand | ⟨hname, hidentifier⟩
        · exact ih child hchild (fun m hm => hfit m (mem_nodes_of_mem_children hchild hm)) hn
            (fun m hm => hfixed m (mem_nodes_of_mem_children hchild hm))
            (hoperands child hoperand)
        · rw [nodes_eq, children_of_isIdentifier hidentifier] at hn
          obtain rfl := List.mem_singleton.1 hn
          have hat := hfixed e (mem_nodes_self e) _ hname
          exact Bool.eq_false_iff.1 hat (beq_self_eq_true span)

/-- The identifier is told from the nodes that are kept by its span. -/
theorem isAt_eq_false_of_fixed {text : List Char} {filling m n : Expr}
    (hspans : ∀ m ∈ e.nodes, m.WellSpanned text) (hn : identifier span name ∈ e.nodes)
    (hm : m ∈ e.nodes) (hfixed : identifier span name ∉ m.fixed) (hmem : n ∈ m.fixed) :
    Hole.isAt ⟨span, filling⟩ n = false := by
  refine Bool.eq_false_iff.2 fun hat => hfixed ?_
  have hchild : n ∈ m.children := by
    unfold fixed at hmem
    split at hmem
    · exact List.mem_cons_of_mem _ hmem
    · exact hmem
    · exact List.mem_cons.2 (Or.inl (List.mem_singleton.1 hmem))
    · cases hmem
  cases n with
  | identifier span' name' =>
    obtain rfl : span' = span := beq_iff_eq.1 hat
    rwa [eq_of_span_eq hspans hn (mem_nodes_child hm hchild) rfl rfl rfl]
  | _ => cases hat

end Expr

end Estree
