import Mathlib.Algebra.GroupWithZero.Nat
import Estree.Proofs.Expr.Shape
import Estree.Proofs.Expr.Unplaced

/-!
# Points of a tree

`Expr.points` counts the points that a tree is written with, and `Expr.weight` one more for each
`new` that is misread. Neither depends on spans, and they differ unless no `new` is misread.

Both are sums over the nodes of the tree (`total`), so that what is shown of a node and of the nodes
right below it is shown of the tree (`total_eq`). That the weight of a tree is no more than its
points is how a tree is recognized in which no `new` is misread (`isMisread_eq_false_of_weight_le`):
each node weighs at least its own points, so none of them can weigh more.
-/

namespace Estree

namespace Expr

variable {e e' : Expr}

/-! ## Sums over nodes -/

/-- A number for each node, summed up. -/
def total (measure : Expr → Nat) (e : Expr) : Nat :=
  (e.nodes.map measure).sum

/-- The sum is that of the root and of the trees right below it. -/
theorem total_eq (measure : Expr → Nat) (e : Expr) :
    e.total measure = measure e + (e.children.map (total measure)).sum := by
  have hflat : ∀ es : List Expr,
      ((es.flatMap nodes).map measure).sum = (es.map (total measure)).sum := by
    intro es
    induction es with
    | nil => rfl
    | cons e rest ih =>
      rw [List.flatMap_cons, List.map_append, List.sum_append, ih, List.map_cons, List.sum_cons]
      rfl
  rw [total, nodes_eq, List.map_cons, List.sum_cons, hflat]

/-- The points that the node itself is written with. -/
def ownPoints : Expr → Nat
  | literal _ raw _ => raw.toList.count '.'
  | call _ _ _ optional => optional.toNat
  | member _ _ _ computed optional => (⟨optional, computed⟩ : Access).text.toList.count '.'
  | _ => 0

/-- The points that a tree is written with. -/
def points : Expr → Nat :=
  total ownPoints

/-- The points that a tree has been read from at least. -/
def weight : Expr → Nat :=
  total fun n => n.ownPoints + n.isMisread.toNat

/-- The weight of several trees. -/
def weights (es : List Expr) : Nat :=
  (es.map weight).sum

/-- The weight of a node and of the nodes right below it. -/
theorem weight_eq (e : Expr) : e.weight = e.ownPoints + e.isMisread.toNat + weights e.children :=
  total_eq _ e

/-- Nodes that are written without a point weigh what the nodes below them weigh. -/
theorem weight_of_plain (hown : e.ownPoints = 0) (hread : e.isMisread = false) :
    e.weight = weights e.children := by
  rw [weight_eq, hown, hread, Bool.toNat_false, Nat.zero_add]

/-- The points of a node and of the nodes right below it. -/
theorem points_eq (e : Expr) : e.points = e.ownPoints + (e.children.map points).sum :=
  total_eq _ e

/-- One tree more. -/
theorem weights_cons (e : Expr) (es : List Expr) : weights (e :: es) = e.weight + weights es := by
  rw [weights, List.map_cons, List.sum_cons]
  rfl

theorem weights_nil : weights [] = 0 := rfl

/-- A tree with a `new` that is misread weighs more than the points it is written with. -/
theorem isMisread_eq_false_of_weight_le (h : e.weight ≤ e.points) :
    ∀ n ∈ e.nodes, n.isMisread = false := by
  have hcount : ∀ ns : List Expr, (ns.map fun n => n.ownPoints + n.isMisread.toNat).sum =
      (ns.map ownPoints).sum + ns.countP isMisread := by
    intro ns
    induction ns with
    | nil => rfl
    | cons n rest ih =>
      have htoNat : n.isMisread.toNat = if n.isMisread = true then 1 else 0 := by
        cases n.isMisread <;> rfl
      rw [List.map_cons, List.sum_cons, ih, List.map_cons, List.sum_cons, List.countP_cons, htoNat]
      omega
  have hnone : e.nodes.countP isMisread = 0 := by
    have hweight := hcount e.nodes
    unfold weight points total at h
    omega
  intro n hn
  exact Bool.eq_false_iff.2 (List.countP_eq_zero.1 hnone n hn)

/-! ## Without spans -/

/-- Below a node without spans are the nodes below it, without spans. -/
theorem children_unplaced (e : Expr) : e.unplaced.children = e.children.map unplaced := by
  cases e with
  | array span elements =>
    rw [unplaced, children, children, unplacedSlots_eq_map, List.filterMap_map, List.map_filterMap]
    rfl
  | sequence span es => rw [unplaced, children, children, unplacedList_eq_map]
  | new span callee es => rw [unplaced, children, children, unplacedList_eq_map, List.map_cons]
  | call span callee es optional =>
    rw [unplaced, children, children, unplacedList_eq_map, List.map_cons]
  | _ => rfl

/-- The same for all nodes of the tree. -/
theorem nodes_unplaced (e : Expr) : e.unplaced.nodes = e.nodes.map unplaced := by
  induction e using Expr.induction with
  | h e ih =>
    rw [nodes_eq, nodes_eq e, children_unplaced, List.map_cons, List.map_flatMap, List.flatMap_map]
    rw [List.flatMap_def, List.flatMap_def, List.map_congr_left ih]

/-- A call on the spine stays there. -/
theorem hasCallInSpine_unplaced (e : Expr) : e.unplaced.hasCallInSpine = e.hasCallInSpine := by
  induction e using Expr.induction with
  | h e ih =>
    cases e with
    | member span object property computed optional => exact ih object (List.mem_cons_self ..)
    | _ => rfl

/-- So does the first word. -/
theorem opensWithOperator_unplaced (e : Expr) :
    e.unplaced.opensWithOperator = e.opensWithOperator := by
  induction e using Expr.induction with
  | h e ih =>
    cases e with
    | call span callee es optional => exact ih callee (List.mem_cons_self ..)
    | member span object property computed optional => exact ih object (List.mem_cons_self ..)
    | chain span expression => exact ih expression (List.mem_cons_self ..)
    | update span operator leading argument =>
      cases leading with
      | true => rfl
      | false => exact ih argument (List.mem_cons_self ..)
    | _ => rfl

/-- So does how tightly the root binds. -/
theorem level_unplaced (e : Expr) : e.unplaced.level = e.level := by
  cases e with
  | update span operator leading argument => cases leading <;> rfl
  | _ => rfl

/-- So whether a `new` is misread has nothing to do with spans. -/
theorem isMisread_unplaced (e : Expr) : e.unplaced.isMisread = e.isMisread := by
  cases e with
  | new span callee es =>
    rw [unplaced, isMisread, isMisread, isGroupedAfterNew, isGroupedAfterNew, isGroupedAt,
      isGroupedAt, isChain_unplaced, hasCallInSpine_unplaced, level_unplaced,
      opensWithOperator_unplaced]
  | _ => rfl

/-- Nor has the weight of a tree. -/
theorem weight_unplaced (e : Expr) : e.unplaced.weight = e.weight := by
  have hown : ∀ n : Expr, n.unplaced.ownPoints = n.ownPoints := fun n => by cases n <;> rfl
  rw [weight, total, total, nodes_unplaced, List.map_map]
  refine congrArg _ (List.map_congr_left fun n _ => ?_)
  show n.unplaced.ownPoints + n.unplaced.isMisread.toNat = _
  rw [hown, isMisread_unplaced]

/-- Trees that are the same weigh the same. -/
theorem SameAs.weight_eq (h : e.SameAs e') : e.weight = e'.weight := by
  rw [← weight_unplaced e, h, weight_unplaced]

end Expr

end Estree
