import Estree.Proofs.Expr.Unplaced

/-!
# Views of trees

Two readings of one text at two places yield trees that differ in their offsets; after a piece of
the text has been replaced, they differ in a subtree as well. A `View` says how a tree is to be
looked at before it is compared: where its offsets go, and which tree stands in for one of its
identifiers. Readings are then compared by one relation, whatever the difference is.

* `relocated f` moves every offset by `f`. With a constant it takes the spans away
  (`relocated_const`), and `movedBy` is the case of a text that stands further on.
* `filled hole` puts another tree in place of the identifier at a span, but for names after points
  and for what is updated or called by `new`, where another tree could not have been read.

A view is both, one after the other, and there is one lemma for each kind of node (`tree_literal`,
…, `tree_join`): the view of a node is the node of the views. They have to ask that the hole is not
at a node that is left as it is (`tree_new`, `tree_update`), and tell what happens if it is
(`tree_new_isAt`, `tree_update_isAt`). What a production yields besides trees is looked at alike
(`Viewed`).
-/

namespace Estree

/-- The span between other offsets. -/
def Span.relocated (f : Nat → Nat) (span : Span) : Span :=
  ⟨f span.start, f span.stop⟩

namespace Expr

/-! ## Other offsets -/

mutual

/-- The tree with other offsets in all of its spans. -/
def relocated (f : Nat → Nat) : Expr → Expr
  | literal span raw value => .literal (span.relocated f) raw value
  | identifier span name => .identifier (span.relocated f) name
  | this span => .this (span.relocated f)
  | array span elements => .array (span.relocated f) (relocatedSlots f elements)
  | sequence span expressions => .sequence (span.relocated f) (relocatedList f expressions)
  | conditional span test consequent alternate =>
    .conditional (span.relocated f) (test.relocated f) (consequent.relocated f)
      (alternate.relocated f)
  | new span callee arguments =>
    .new (span.relocated f) (callee.relocated f) (relocatedList f arguments)
  | call span callee arguments optional =>
    .call (span.relocated f) (callee.relocated f) (relocatedList f arguments) optional
  | member span object property computed optional =>
    .member (span.relocated f) (object.relocated f) (property.relocated f) computed optional
  | chain span expression => .chain (span.relocated f) (expression.relocated f)
  | update span operator leading argument =>
    .update (span.relocated f) operator leading (argument.relocated f)
  | unary span operator leading argument =>
    .unary (span.relocated f) operator leading (argument.relocated f)
  | binary span operator left right =>
    .binary (span.relocated f) operator (left.relocated f) (right.relocated f)
  | logical span operator left right =>
    .logical (span.relocated f) operator (left.relocated f) (right.relocated f)

/-- The trees of a list with other offsets. -/
def relocatedList (f : Nat → Nat) : List Expr → List Expr
  | [] => []
  | e :: rest => e.relocated f :: relocatedList f rest

/-- The elements of an array with other offsets. -/
def relocatedSlots (f : Nat → Nat) : List (Option Expr) → List (Option Expr)
  | [] => []
  | none :: rest => none :: relocatedSlots f rest
  | some e :: rest => some (e.relocated f) :: relocatedSlots f rest

end

/-- The tree that many bytes further on. -/
def movedBy (e : Expr) (offset : Nat) : Expr :=
  e.relocated (offset + ·)

/-- The nested recursion over a list is a `map`. -/
theorem relocatedList_eq_map (f : Nat → Nat) (es : List Expr) :
    relocatedList f es = es.map (relocated f) := by
  induction es with
  | nil => rfl
  | cons e rest ih => rw [relocatedList, ih, List.map_cons]

/-- So it is over the elements of an array, holes included. -/
theorem relocatedSlots_eq_map (f : Nat → Nat) (elements : List (Option Expr)) :
    relocatedSlots f elements = elements.map (Option.map (relocated f)) := by
  induction elements with
  | nil => rfl
  | cons slot rest ih => cases slot <;> rw [relocatedSlots, ih] <;> rfl

/-- The span of the whole tree is moved as those within it. -/
theorem span_relocated (f : Nat → Nat) (e : Expr) : (e.relocated f).span = e.span.relocated f := by
  cases e <;> rfl

/-- What can be updated does not depend on offsets. -/
theorem isPlace_relocated (f : Nat → Nat) (e : Expr) : (e.relocated f).isPlace = e.isPlace := by
  cases e <;> rfl

/-- Nor does it whether the node is a chain. -/
theorem isChain_relocated (f : Nat → Nat) (e : Expr) : (e.relocated f).isChain = e.isChain := by
  cases e <;> rfl

mutual

/-- Trees that are compared without offsets are compared but for their spans. -/
theorem relocated_const : (e : Expr) → e.relocated (fun _ => 0) = e.unplaced
  | literal .. | identifier .. | this _ => rfl
  | array _ elements => by rw [relocated, unplaced, relocatedSlots_const elements]; rfl
  | sequence _ es => by rw [relocated, unplaced, relocatedList_const es]; rfl
  | conditional _ test consequent alternate => by
    rw [relocated, unplaced, relocated_const test, relocated_const consequent,
      relocated_const alternate]
    rfl
  | new _ callee es => by
    rw [relocated, unplaced, relocated_const callee, relocatedList_const es]
    rfl
  | call _ callee es _ => by
    rw [relocated, unplaced, relocated_const callee, relocatedList_const es]
    rfl
  | member _ object property _ _ => by
    rw [relocated, unplaced, relocated_const object, relocated_const property]
    rfl
  | chain _ e | update _ _ _ e | unary _ _ _ e => by
    rw [relocated, unplaced, relocated_const e]
    rfl
  | binary _ _ left right | logical _ _ left right => by
    rw [relocated, unplaced, relocated_const left, relocated_const right]
    rfl

theorem relocatedList_const : (es : List Expr) →
    relocatedList (fun _ => 0) es = unplacedList es
  | [] => rfl
  | e :: rest => by rw [relocatedList, unplacedList, relocated_const e, relocatedList_const rest]

theorem relocatedSlots_const : (elements : List (Option Expr)) →
    relocatedSlots (fun _ => 0) elements = unplacedSlots elements
  | [] => rfl
  | none :: rest => by rw [relocatedSlots, unplacedSlots, relocatedSlots_const rest]
  | some e :: rest => by
    rw [relocatedSlots, unplacedSlots, relocated_const e, relocatedSlots_const rest]

end

mutual

theorem relocated_id : (e : Expr) → e.relocated id = e
  | literal .. | identifier .. | this _ => rfl
  | array _ elements => by rw [relocated, relocatedSlots_id elements]; rfl
  | sequence _ es => by rw [relocated, relocatedList_id es]; rfl
  | conditional _ test consequent alternate => by
    rw [relocated, relocated_id test, relocated_id consequent, relocated_id alternate]
    rfl
  | new _ callee es => by
    rw [relocated, relocated_id callee, relocatedList_id es]
    rfl
  | call _ callee es _ => by
    rw [relocated, relocated_id callee, relocatedList_id es]
    rfl
  | member _ object property _ _ => by
    rw [relocated, relocated_id object, relocated_id property]
    rfl
  | chain _ e | update _ _ _ e | unary _ _ _ e => by
    rw [relocated, relocated_id e]
    rfl
  | binary _ _ left right | logical _ _ left right => by
    rw [relocated, relocated_id left, relocated_id right]
    rfl

theorem relocatedList_id : (es : List Expr) → relocatedList id es = es
  | [] => rfl
  | e :: rest => by rw [relocatedList, relocated_id e, relocatedList_id rest]

theorem relocatedSlots_id : (elements : List (Option Expr)) → relocatedSlots id elements = elements
  | [] => rfl
  | none :: rest => by rw [relocatedSlots, relocatedSlots_id rest]
  | some e :: rest => by rw [relocatedSlots, relocated_id e, relocatedSlots_id rest]

end

/-! ## Another tree in place of an identifier -/

/-- The span of an identifier, and a tree to stand in for it. -/
structure Hole where
  span : Span
  filling : Expr

/-- Whether the tree is the identifier. -/
def Hole.isAt (hole : Hole) : Expr → Bool
  | identifier span _ => span == hole.span
  | _ => false

mutual

/-- The tree with another one in place of the identifier with the span. No tree stands in
for the name of a member access, nor for an identifier that is updated or that `new` calls. -/
def filled (hole : Hole) : Expr → Expr
  | literal span raw value => .literal span raw value
  | identifier span name => if span == hole.span then hole.filling else .identifier span name
  | this span => .this span
  | array span elements => .array span (filledSlots hole elements)
  | sequence span expressions => .sequence span (filledList hole expressions)
  | conditional span test consequent alternate =>
    .conditional span (test.filled hole) (consequent.filled hole)
      (alternate.filled hole)
  | new span callee arguments =>
    if hole.isAt callee then .new span callee arguments
    else .new span (callee.filled hole) (filledList hole arguments)
  | call span callee arguments optional =>
    .call span (callee.filled hole) (filledList hole arguments) optional
  | member span object property computed optional =>
    .member span (object.filled hole)
      (if computed then property.filled hole else property) computed optional
  | chain span expression => .chain span (expression.filled hole)
  | update span operator leading argument =>
    if hole.isAt argument then .update span operator leading argument
    else .update span operator leading (argument.filled hole)
  | unary span operator leading argument =>
    .unary span operator leading (argument.filled hole)
  | binary span operator left right =>
    .binary span operator (left.filled hole) (right.filled hole)
  | logical span operator left right =>
    .logical span operator (left.filled hole) (right.filled hole)

/-- The trees of a list with the other tree in its place. -/
def filledList (hole : Hole) : List Expr → List Expr
  | [] => []
  | e :: rest => e.filled hole :: filledList hole rest

/-- The elements of an array with the other tree in its place. -/
def filledSlots (hole : Hole) : List (Option Expr) → List (Option Expr)
  | [] => []
  | none :: rest => none :: filledSlots hole rest
  | some e :: rest => some (e.filled hole) :: filledSlots hole rest

end

/-- The nested recursion over a list is a `map`. -/
theorem filledList_eq_map (hole : Hole) (es : List Expr) :
    filledList hole es = es.map (filled hole) := by
  induction es with
  | nil => rfl
  | cons e rest ih => rw [filledList, ih, List.map_cons]

/-- So it is over the elements of an array, holes included. -/
theorem filledSlots_eq_map (hole : Hole) (elements : List (Option Expr)) :
    filledSlots hole elements = elements.map (Option.map (filled hole)) := by
  induction elements with
  | nil => rfl
  | cons slot rest ih => cases slot <;> rw [filledSlots, ih] <;> rfl

/-- But for the identifier that it stands in for, the other tree leaves nodes of their kind. -/
theorem isPlace_filled {hole : Hole} {e : Expr} (h : hole.isAt e = false) :
    (e.filled hole).isPlace = e.isPlace := by
  cases e with
  | identifier span name =>
    have hne : ¬(span == hole.span) = true := Bool.eq_false_iff.1 h
    rw [filled, if_neg hne]
  | new | update =>
    rw [filled]
    split <;> rfl
  | _ => rfl

/-- Where the tree itself is not replaced, it is a chain as before. -/
theorem isChain_filled {hole : Hole} {e : Expr} (h : hole.isAt e = false) :
    (e.filled hole).isChain = e.isChain := by
  cases e with
  | identifier span name =>
    have hne : ¬(span == hole.span) = true := Bool.eq_false_iff.1 h
    rw [filled, if_neg hne]
  | new | update =>
    rw [filled]
    split <;> rfl
  | _ => rfl

end Expr

/-! ## Views -/

/-- A way to look at trees: other offsets, and another tree in place of an identifier. -/
structure View where
  offset : Nat → Nat
  hole? : Option Expr.Hole

namespace View

/-- What a tree looks like. -/
def tree (x : View) (e : Expr) : Expr :=
  match x.hole? with
  | none => e.relocated x.offset
  | some hole => (e.filled hole).relocated x.offset

/-- All there is to see but offsets. -/
def unplaced : View := ⟨fun _ => 0, none⟩

variable {x y : View}

section Nodes

variable (x : View) (span : Span)

theorem tree_literal (raw : String) (value : LiteralValue) :
    x.tree (.literal span raw value) = .literal (span.relocated x.offset) raw value := by
  rw [tree]
  split <;> rfl

theorem tree_this : x.tree (.this span) = .this (span.relocated x.offset) := by
  rw [tree]
  split <;> rfl

/-- The elements of an array are looked at each on its own, and holes stay. -/
theorem tree_array (elements : List (Option Expr)) : x.tree (.array span elements) =
    .array (span.relocated x.offset) (elements.map (Option.map x.tree)) := by
  rcases x with ⟨f, _ | hole⟩
  · show Expr.array _ _ = _
    rw [Expr.relocatedSlots_eq_map]
    rfl
  · show Expr.array _ _ = _
    rw [Expr.filledSlots_eq_map, Expr.relocatedSlots_eq_map, List.map_map]
    congr 1
    refine List.map_congr_left fun slot _ => ?_
    cases slot <;> rfl

theorem tree_sequence (es : List Expr) :
    x.tree (.sequence span es) = .sequence (span.relocated x.offset) (es.map x.tree) := by
  rcases x with ⟨f, _ | hole⟩
  · show Expr.sequence _ _ = _
    rw [Expr.relocatedList_eq_map]
    rfl
  · show Expr.sequence _ _ = _
    rw [Expr.filledList_eq_map, Expr.relocatedList_eq_map, List.map_map]
    rfl

theorem tree_conditional (test consequent alternate : Expr) :
    x.tree (.conditional span test consequent alternate) =
      .conditional (span.relocated x.offset) (x.tree test) (x.tree consequent)
        (x.tree alternate) := by
  rcases x with ⟨f, _ | hole⟩ <;> rfl

/-- The callee of a `new` is looked at unless it is the identifier to be replaced. -/
theorem tree_new {callee : Expr} (h : ∀ hole ∈ x.hole?, hole.isAt callee = false)
    (es : List Expr) : x.tree (.new span callee es) =
      .new (span.relocated x.offset) (x.tree callee) (es.map x.tree) := by
  rcases x with ⟨f, _ | hole⟩
  · show Expr.new _ _ _ = _
    rw [Expr.relocatedList_eq_map]
    rfl
  · show (Expr.filled hole (.new span callee es)).relocated f = _
    rw [Expr.filled, if_neg (Bool.eq_false_iff.1 (h hole rfl)), Expr.relocated,
      Expr.filledList_eq_map, Expr.relocatedList_eq_map, List.map_map]
    rfl

theorem tree_call (callee : Expr) (es : List Expr) (optional : Bool) :
    x.tree (.call span callee es optional) =
      .call (span.relocated x.offset) (x.tree callee) (es.map x.tree) optional := by
  rcases x with ⟨f, _ | hole⟩
  · show Expr.call _ _ _ _ = _
    rw [Expr.relocatedList_eq_map]
    rfl
  · show Expr.call _ _ _ _ = _
    rw [Expr.filledList_eq_map, Expr.relocatedList_eq_map, List.map_map]
    rfl

theorem tree_computed (object property : Expr) (optional : Bool) :
    x.tree (.member span object property true optional) =
      .member (span.relocated x.offset) (x.tree object) (x.tree property) true optional := by
  rcases x with ⟨f, _ | hole⟩ <;> rfl

/-- The name after a point is only moved: nothing stands in for it. -/
theorem tree_named (object property : Expr) (optional : Bool) :
    x.tree (.member span object property false optional) =
      .member (span.relocated x.offset) (x.tree object) (property.relocated x.offset) false
        optional := by
  rcases x with ⟨f, _ | hole⟩ <;> rfl

theorem tree_chain (e : Expr) :
    x.tree (.chain span e) = .chain (span.relocated x.offset) (x.tree e) := by
  rcases x with ⟨f, _ | hole⟩ <;> rfl

/-- The place of an update is looked at unless it is the identifier to be replaced. -/
theorem tree_update (operator : UpdateOperator) (leading : Bool) {e : Expr}
    (h : ∀ hole ∈ x.hole?, hole.isAt e = false) :
    x.tree (.update span operator leading e) =
      .update (span.relocated x.offset) operator leading (x.tree e) := by
  rcases x with ⟨f, _ | hole⟩
  · rfl
  · show (Expr.filled hole (.update span operator leading e)).relocated f = _
    rw [Expr.filled, if_neg (Bool.eq_false_iff.1 (h hole rfl))]
    rfl

/-- An identifier that is updated looks like itself. -/
theorem tree_update_isAt (operator : UpdateOperator) (leading : Bool) {e : Expr}
    (h : ∃ hole ∈ x.hole?, hole.isAt e = true) :
    x.tree (.update span operator leading e) =
      (Expr.update span operator leading e).relocated x.offset := by
  obtain ⟨hole, hhole, hat⟩ := h
  rw [tree, Option.mem_def.1 hhole]
  show (Expr.filled hole (.update span operator leading e)).relocated _ = _
  rw [Expr.filled, if_pos hat]

/-- And so does one that `new` calls, and its arguments. -/
theorem tree_new_isAt {callee : Expr} (es : List Expr)
    (h : ∃ hole ∈ x.hole?, hole.isAt callee = true) :
    x.tree (.new span callee es) = (Expr.new span callee es).relocated x.offset := by
  obtain ⟨hole, hhole, hat⟩ := h
  rw [tree, Option.mem_def.1 hhole]
  show (Expr.filled hole (.new span callee es)).relocated _ = _
  rw [Expr.filled, if_pos hat]

theorem tree_unary (operator : UnaryOperator) (leading : Bool) (e : Expr) :
    x.tree (.unary span operator leading e) =
      .unary (span.relocated x.offset) operator leading (x.tree e) := by
  rcases x with ⟨f, _ | hole⟩ <;> rfl

/-- An infix operator joins what its operands look like, between their new offsets. -/
theorem tree_join (operator : InfixOperator) (left right : Expr) :
    x.tree (operator.join left right) =
      match operator with
      | .binary operator => .binary ⟨x.offset left.span.start, x.offset right.span.stop⟩ operator
          (x.tree left) (x.tree right)
      | .logical operator => .logical ⟨x.offset left.span.start, x.offset right.span.stop⟩ operator
          (x.tree left) (x.tree right) := by
  rcases x with ⟨f, _ | hole⟩ <;> cases operator <;> rfl

/-- An identifier looks like itself, unless the other tree stands in for it. -/
theorem tree_identifier (name : String) (h : ∀ hole ∈ x.hole?, span ≠ hole.span) :
    x.tree (.identifier span name) = .identifier (span.relocated x.offset) name := by
  rcases x with ⟨f, _ | hole⟩
  · rfl
  · show (Expr.filled hole (.identifier span name)).relocated f = _
    rw [Expr.filled, if_neg (by simp [h hole rfl])]
    rfl

/-- The identifier itself looks like the tree that stands in for it. -/
theorem tree_identifier_isAt (name : String) {hole : Expr.Hole} (hhole : hole ∈ x.hole?)
    (h : span = hole.span) :
    x.tree (.identifier span name) = hole.filling.relocated x.offset := by
  rw [tree, Option.mem_def.1 hhole]
  show (Expr.filled hole (.identifier span name)).relocated _ = _
  rw [Expr.filled, if_pos (by simp [h])]

end Nodes

end View

end Estree
