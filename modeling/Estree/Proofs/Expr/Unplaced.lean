import Estree.Proofs.Expr.Nodes

/-!
# Trees apart from their spans

A tree that is read from the text that another one was written as has other spans, so what is the
same must be said without them. `Expr.SameAs` is equality of everything but the spans: kinds,
operators, flags, holes, names, spellings and values. It is equality after every span has been set
to the same one (`unplaced`), so that it is an equivalence at once and rewriting does the rest.
-/

namespace Estree

namespace Expr

/-- No bytes at all. -/
def nowhere : Span := ⟨0, 0⟩

mutual

/-- The tree with the same empty span at every node. -/
def unplaced : Expr → Expr
  | literal _ raw value => .literal nowhere raw value
  | identifier _ name => .identifier nowhere name
  | this _ => .this nowhere
  | array _ elements => .array nowhere (unplacedSlots elements)
  | sequence _ expressions => .sequence nowhere (unplacedList expressions)
  | conditional _ test consequent alternate =>
    .conditional nowhere test.unplaced consequent.unplaced alternate.unplaced
  | new _ callee arguments => .new nowhere callee.unplaced (unplacedList arguments)
  | call _ callee arguments optional =>
    .call nowhere callee.unplaced (unplacedList arguments) optional
  | member _ object property computed optional =>
    .member nowhere object.unplaced property.unplaced computed optional
  | chain _ expression => .chain nowhere expression.unplaced
  | update _ operator leading argument => .update nowhere operator leading argument.unplaced
  | unary _ operator leading argument => .unary nowhere operator leading argument.unplaced
  | binary _ operator left right => .binary nowhere operator left.unplaced right.unplaced
  | logical _ operator left right => .logical nowhere operator left.unplaced right.unplaced

/-- The trees of a list without spans. -/
def unplacedList : List Expr → List Expr
  | [] => []
  | e :: rest => e.unplaced :: unplacedList rest

/-- The elements of an array without spans. -/
def unplacedSlots : List (Option Expr) → List (Option Expr)
  | [] => []
  | none :: rest => none :: unplacedSlots rest
  | some e :: rest => some e.unplaced :: unplacedSlots rest

end

/-- The trees are equal except for their spans. -/
def SameAs (e e' : Expr) : Prop :=
  e.unplaced = e'.unplaced

/-- The nested recursion over a list is a `map`. -/
theorem unplacedList_eq_map (es : List Expr) : unplacedList es = es.map unplaced := by
  induction es with
  | nil => rfl
  | cons e rest ih => rw [unplacedList, ih, List.map_cons]

/-- So it is over the elements of an array, holes included. -/
theorem unplacedSlots_eq_map (elements : List (Option Expr)) :
    unplacedSlots elements = elements.map (Option.map unplaced) := by
  induction elements with
  | nil => rfl
  | cons slot rest ih =>
    cases slot with
    | none => rw [unplacedSlots, ih]; rfl
    | some e => rw [unplacedSlots, ih]; rfl

variable {e e' : Expr}

/-- What can be updated does not depend on spans. -/
theorem isPlace_unplaced (e : Expr) : e.unplaced.isPlace = e.isPlace := by
  cases e <;> rfl

theorem isChain_unplaced (e : Expr) : e.unplaced.isChain = e.isChain := by
  cases e <;> rfl

/-- So trees that are the same but for them can both be updated, or neither can. -/
theorem SameAs.isPlace_eq (h : e.SameAs e') : e.isPlace = e'.isPlace := by
  rw [← isPlace_unplaced e, h, isPlace_unplaced]

theorem SameAs.isChain_eq (h : e.SameAs e') : e.isChain = e'.isChain := by
  rw [← isChain_unplaced e, h, isChain_unplaced]

end Expr

end Estree
