import Estree.Proofs.Expr.Nodes
import Estree.Text.Utf8

/-!
# Spans

> `WellSpanned`: the span of a node is not empty, begins and ends between characters, and holds
> those of the nodes right below it, one after the other.

This is about a node, and while a tree is put together there are several trees side by side that
belong to no node yet.

> `AreAt text lo hi es`: the trees stand one after the other between two offsets, and all their
> nodes are well spanned.

So there is one statement that every production can make about what it yields between its cursors,
and it composes: lists are appended (`AreAt.append`), the offsets may be moved apart (`AreAt.mono`),
and a node put over the trees stands where they stood (`areAt_between` and those beside it, which
differ in where the span of the node begins and ends).

Since siblings do not overlap and no span is empty, two nodes with one span are one above the other,
as a chain and what it holds are. A node with none below it is therefore known by its span
(`eq_of_span_eq`).
-/

namespace Estree

/-- A piece of the text ends at the offset. -/
def Text.IsBoundary (text : List Char) (offset : Nat) : Prop :=
  ∃ before rest, text = before ++ rest ∧ utf8Size before = offset

theorem Text.IsBoundary.le {text : List Char} {offset : Nat} (h : IsBoundary text offset) :
    offset ≤ utf8Size text := by
  obtain ⟨before, rest, rfl, rfl⟩ := h
  rw [utf8Size_append]
  exact Nat.le_add_right _ _

/-- From a beginning of the text up to an offset between characters there is a piece. -/
theorem Text.IsBoundary.exists_split {before rest : List Char} {offset : Nat}
    (h : IsBoundary (before ++ rest) offset) (hle : utf8Size before ≤ offset) :
    ∃ piece after, rest = piece ++ after ∧ utf8Size before + utf8Size piece = offset := by
  obtain ⟨upto, after, htext, rfl⟩ := h
  rcases List.append_eq_append_iff.1 htext with ⟨piece, rfl, rfl⟩ | ⟨piece, rfl, rfl⟩
  · exact ⟨piece, after, rfl, (utf8Size_append before piece).symm⟩
  · rw [utf8Size_append] at hle
    refine ⟨[], rest, rfl, ?_⟩
    rw [utf8Size_append, utf8Size_nil]
    omega

namespace Expr

variable {text : List Char} {e : Expr} {es fs : List Expr} {lo lo' mid hi hi' : Nat}

/-- The span of the node suits the text and the spans of the nodes right below. -/
structure WellSpanned (text : List Char) (n : Expr) : Prop where
  start_lt_stop : n.span.start < n.span.stop
  stop_le : n.span.stop ≤ Text.utf8Size text
  start_isBoundary : Text.IsBoundary text n.span.start
  stop_isBoundary : Text.IsBoundary text n.span.stop
  contains : ∀ child ∈ n.children, n.span.contains child.span = true
  ordered : ∀ i first second, n.children[i]? = some first → n.children[i + 1]? = some second →
    first.span.stop ≤ second.span.start

/-! ## Trees one after the other -/

/-- The trees stand between the offsets, one after the other. -/
def InOrder : (lo hi : Nat) → List Expr → Prop
  | lo, hi, [] => lo ≤ hi
  | lo, hi, e :: rest => lo ≤ e.span.start ∧ InOrder e.span.stop hi rest

/-- The trees stand between the offsets, one after the other, and their nodes are well spanned. -/
structure AreAt (text : List Char) (lo hi : Nat) (es : List Expr) : Prop where
  order : InOrder lo hi es
  nodes : ∀ e ∈ es, ∀ n ∈ e.nodes, n.WellSpanned text

theorem areAt_nil (h : lo ≤ hi) : AreAt text lo hi [] := ⟨h, nofun⟩

/-- The first tree, and the others behind it. -/
theorem areAt_cons_iff : AreAt text lo hi (e :: es) ↔
    lo ≤ e.span.start ∧ (∀ n ∈ e.nodes, n.WellSpanned text) ∧ AreAt text e.span.stop hi es := by
  constructor
  · rintro ⟨⟨hlo, horder⟩, hnodes⟩
    obtain ⟨he, hes⟩ := List.forall_mem_cons.1 hnodes
    exact ⟨hlo, he, horder, hes⟩
  · rintro ⟨hlo, he, horder, hes⟩
    exact ⟨⟨hlo, horder⟩, List.forall_mem_cons.2 ⟨he, hes⟩⟩

/-- One tree between two offsets. -/
theorem areAt_singleton_iff : AreAt text lo hi [e] ↔
    lo ≤ e.span.start ∧ (∀ n ∈ e.nodes, n.WellSpanned text) ∧ e.span.stop ≤ hi := by
  rw [areAt_cons_iff]
  exact and_congr_right fun _ => and_congr_right fun _ => ⟨fun h => h.order, areAt_nil⟩

/-- The first tree is well spanned itself. -/
theorem AreAt.root (h : AreAt text lo hi (e :: es)) : e.WellSpanned text :=
  h.nodes e (List.mem_cons_self ..) e (mem_nodes_self e)

/-- The offsets are in order even if there is no tree. -/
theorem AreAt.le (h : AreAt text lo hi es) : lo ≤ hi := by
  induction es generalizing lo with
  | nil => exact h.order
  | cons e rest ih =>
    have hspan := h.root.start_lt_stop
    obtain ⟨hlo, -, hrest⟩ := areAt_cons_iff.1 h
    have hle := ih hrest
    omega

/-- The trees stand between wider offsets as well. -/
theorem AreAt.mono (h : AreAt text lo hi es) (hlo : lo' ≤ lo) (hhi : hi ≤ hi') :
    AreAt text lo' hi' es := by
  induction es generalizing lo lo' with
  | nil => exact areAt_nil (Nat.le_trans hlo (Nat.le_trans h.order hhi))
  | cons e rest ih =>
    obtain ⟨hstart, he, hrest⟩ := areAt_cons_iff.1 h
    exact areAt_cons_iff.2 ⟨Nat.le_trans hlo hstart, he, ih hrest (Nat.le_refl _)⟩

/-- Trees side by side. -/
theorem AreAt.append (h : AreAt text lo mid es) (h' : AreAt text mid hi fs) :
    AreAt text lo hi (es ++ fs) := by
  induction es generalizing lo with
  | nil => exact h'.mono h.order (Nat.le_refl _)
  | cons e rest ih =>
    obtain ⟨hstart, he, hrest⟩ := areAt_cons_iff.1 h
    exact areAt_cons_iff.2 ⟨hstart, he, ih hrest⟩

/-- Each of the trees stands between the offsets. -/
theorem AreAt.of_mem (h : AreAt text lo hi es) (he : e ∈ es) : AreAt text lo hi [e] := by
  induction es generalizing lo with
  | nil => cases he
  | cons first rest ih =>
    have hspan := h.root.start_lt_stop
    obtain ⟨hstart, hfirst, hrest⟩ := areAt_cons_iff.1 h
    rcases List.mem_cons.1 he with rfl | he
    · exact areAt_singleton_iff.2 ⟨hstart, hfirst, hrest.le⟩
    · exact (ih hrest he).mono (by omega) (Nat.le_refl _)

/-- Of trees in order each ends before the next one begins. -/
theorem InOrder.consecutive (h : InOrder lo hi es) {i : Nat} {first second : Expr}
    (hfirst : es[i]? = some first) (hsecond : es[i + 1]? = some second) :
    first.span.stop ≤ second.span.start := by
  induction es generalizing lo i with
  | nil => cases hfirst
  | cons e rest ih =>
    cases i with
    | zero =>
      obtain rfl := Option.some.inj hfirst
      cases rest with
      | nil => cases hsecond
      | cons e' rest =>
        obtain rfl := Option.some.inj hsecond
        exact h.2.1
    | succ i => exact ih h.2 hfirst hsecond

/-! ## A node above them -/

/-- The trees stand from the start of the first one to the stop of the last one. -/
theorem AreAt.tight (h : AreAt text lo hi (e :: es)) :
    AreAt text e.span.start (es.getLastD e).span.stop (e :: es) ∧
      (es.getLastD e).span.stop ≤ hi ∧ Text.IsBoundary text (es.getLastD e).span.stop := by
  induction es generalizing e lo with
  | nil =>
    obtain ⟨-, he, hhi⟩ := areAt_singleton_iff.1 h
    exact ⟨areAt_singleton_iff.2 ⟨Nat.le_refl _, he, Nat.le_refl _⟩, hhi, h.root.stop_isBoundary⟩
  | cons first rest ih =>
    obtain ⟨-, he, hrest⟩ := areAt_cons_iff.1 h
    obtain ⟨htight, hhi, hstop⟩ := ih hrest
    obtain ⟨hstart, -, -⟩ := areAt_cons_iff.1 hrest
    rw [List.getLastD_cons]
    exact ⟨areAt_cons_iff.2 ⟨Nat.le_refl _, he, htight.mono hstart (Nat.le_refl _)⟩, hhi, hstop⟩

theorem AreAt.lt (h : AreAt text lo hi (e :: es)) : lo < hi := by
  have hspan := h.root.start_lt_stop
  obtain ⟨hlo, -, hrest⟩ := areAt_cons_iff.1 h
  have hle := hrest.le
  omega

theorem AreAt.from_start (h : AreAt text lo hi (e :: es)) :
    AreAt text e.span.start hi (e :: es) := by
  obtain ⟨-, he, hrest⟩ := areAt_cons_iff.1 h
  exact areAt_cons_iff.2 ⟨Nat.le_refl _, he, hrest⟩

/-! ## A node above them -/

variable {n : Expr}

/-- A node between two offsets, if the trees right below stand between them. -/
theorem areAt_between (h : AreAt text lo hi n.children) (hlt : lo < hi) (hspan : n.span = ⟨lo, hi⟩)
    (hlo : Text.IsBoundary text lo) (hhi : Text.IsBoundary text hi) : AreAt text lo hi [n] := by
  have hnode : n.WellSpanned text := by
    refine ⟨?_, ?_, ?_, ?_, fun child hchild => ?_, fun i first second => h.order.consecutive⟩
    · rwa [hspan]
    · rw [hspan]
      exact hhi.le
    · rwa [hspan]
    · rwa [hspan]
    · obtain ⟨hstart, -, hstop⟩ := areAt_singleton_iff.1 (h.of_mem hchild)
      rw [hspan]
      exact Bool.and_eq_true_iff.2 ⟨decide_eq_true hstart, decide_eq_true hstop⟩
  exact areAt_singleton_iff.2 ⟨Nat.le_of_eq (by rw [hspan]),
    forall_mem_nodes_iff.2 ⟨hnode, h.nodes⟩, Nat.le_of_eq (by rw [hspan])⟩

/-- A node that begins where the first one of the trees right below begins. -/
theorem areAt_from (h : AreAt text lo hi (e :: es)) (hchildren : n.children = e :: es)
    (hspan : n.span = ⟨e.span.start, hi⟩) (hhi : Text.IsBoundary text hi) :
    AreAt text lo hi [n] := by
  obtain ⟨hlo, -⟩ := areAt_cons_iff.1 h
  have hchildren' : AreAt text e.span.start hi n.children := hchildren ▸ h.from_start
  exact (areAt_between hchildren' h.from_start.lt hspan h.root.start_isBoundary hhi).mono hlo
    (Nat.le_refl _)

/-- A node that reaches from the first one of the trees right below to the last one. -/
theorem areAt_across (h : AreAt text lo hi (e :: es)) (hchildren : n.children = e :: es)
    (hspan : n.span = ⟨e.span.start, (es.getLastD e).span.stop⟩) : AreAt text lo hi [n] := by
  obtain ⟨hlo, -⟩ := areAt_cons_iff.1 h
  obtain ⟨htight, hhi, hstop⟩ := h.tight
  exact (areAt_from htight hchildren hspan hstop).mono hlo hhi

/-- A node that ends where the tree right below ends. -/
theorem areAt_upto (h : AreAt text lo hi [e]) (hchildren : n.children = [e])
    (hspan : n.span = ⟨lo, e.span.stop⟩) (hlo : Text.IsBoundary text lo) :
    AreAt text lo hi [n] := by
  obtain ⟨hstart, he, hhi⟩ := areAt_singleton_iff.1 h
  have htight : AreAt text lo e.span.stop [e] := areAt_singleton_iff.2 ⟨hstart, he, Nat.le_refl _⟩
  have hchildren' : AreAt text lo e.span.stop n.children := hchildren ▸ htight
  exact (areAt_between hchildren' htight.lt hspan hlo h.root.stop_isBoundary).mono (Nat.le_refl _)
    hhi

/-! ## Nodes told apart by their spans -/

/-- Trees of which each ends before the next one begins are in order. -/
theorem inOrder_of_consecutive (hlo : ∀ first ∈ es.head?, lo ≤ first.span.start)
    (hhi : ∀ e ∈ es, e.span.stop ≤ hi) (hle : lo ≤ hi)
    (hordered : ∀ i first second, es[i]? = some first → es[i + 1]? = some second →
      first.span.stop ≤ second.span.start) : InOrder lo hi es := by
  induction es generalizing lo with
  | nil => exact hle
  | cons e rest ih =>
    refine ⟨hlo e rfl, ih (fun second hsecond => ?_) (fun x hx => hhi x (List.mem_cons_of_mem e hx))
      (hhi e (List.mem_cons_self ..)) fun i => hordered (i + 1)⟩
    refine hordered 0 e second rfl ?_
    rwa [List.getElem?_cons_succ, ← List.head?_eq_getElem?]

/-- The nodes right below a node stand within its span, one after the other. -/
theorem areAt_children (h : ∀ m ∈ e.nodes, m.WellSpanned text) :
    AreAt text e.span.start e.span.stop e.children := by
  have hroot := h e (mem_nodes_self e)
  have hcontains : ∀ child ∈ e.children,
      e.span.start ≤ child.span.start ∧ child.span.stop ≤ e.span.stop := fun child hchild => by
    have hcontains := hroot.contains child hchild
    rw [Span.contains, Bool.and_eq_true, decide_eq_true_eq, decide_eq_true_eq] at hcontains
    exact hcontains
  refine ⟨inOrder_of_consecutive (fun first hfirst => ?_) (fun child hchild => ?_)
    (Nat.le_of_lt hroot.start_lt_stop) hroot.ordered, fun child hchild m hm => ?_⟩
  · exact (hcontains first (List.mem_of_mem_head? hfirst)).1
  · exact (hcontains child hchild).2
  · exact h m (mem_nodes_of_mem_children hchild hm)

/-- All nodes of a tree stand within the span of the tree. -/
theorem span_within {n : Expr} (h : ∀ m ∈ e.nodes, m.WellSpanned text) (hn : n ∈ e.nodes) :
    e.span.start ≤ n.span.start ∧ n.span.stop ≤ e.span.stop := by
  induction e using Expr.induction with
  | h e ih =>
    rw [nodes_eq] at hn
    rcases List.mem_cons.1 hn with rfl | hn
    · exact ⟨Nat.le_refl _, Nat.le_refl _⟩
    · obtain ⟨child, hchild, hn⟩ := List.mem_flatMap.1 hn
      obtain ⟨hstart, -, hstop⟩ := areAt_singleton_iff.1 ((areAt_children h).of_mem hchild)
      have hwithin := ih child hchild (fun m hm => h m (mem_nodes_of_mem_children hchild hm)) hn
      exact ⟨Nat.le_trans hstart hwithin.1, Nat.le_trans hwithin.2 hstop⟩

/-- All nodes are between the offsets, and none has an empty span. -/
theorem AreAt.within {n : Expr} (h : AreAt text lo hi es) (hn : n ∈ es.flatMap Expr.nodes) :
    lo ≤ n.span.start ∧ n.span.start < n.span.stop ∧ n.span.stop ≤ hi := by
  obtain ⟨e, he, hn⟩ := List.mem_flatMap.1 hn
  obtain ⟨hstart, hnodes, hstop⟩ := areAt_singleton_iff.1 (h.of_mem he)
  have hwithin := span_within hnodes hn
  exact ⟨Nat.le_trans hstart hwithin.1, (hnodes n hn).start_lt_stop,
    Nat.le_trans hwithin.2 hstop⟩

/-- Nodes with the same span are nodes of the same tree. -/
theorem AreAt.mem_nodes_of_span_eq {a b : Expr} (h : AreAt text lo hi es)
    (ha : a ∈ es.flatMap Expr.nodes) (hb : b ∈ es.flatMap Expr.nodes) (hspan : a.span = b.span) :
    ∃ e ∈ es, a ∈ e.nodes ∧ b ∈ e.nodes := by
  -- Nodes of two trees, one after the other, have no bytes in common.
  have happart : ∀ {e : Expr} {rest : List Expr} {lo : Nat} {x y : Expr},
      AreAt text lo hi (e :: rest) → x ∈ e.nodes → y ∈ rest.flatMap Expr.nodes →
        x.span ≠ y.span := by
    intro e rest lo x y h hx hy hspan
    obtain ⟨-, he, hrest⟩ := areAt_cons_iff.1 h
    have hwithin := (span_within he hx).2
    have hx' := (he x hx).start_lt_stop
    have hy' := (hrest.within hy).1
    rw [← hspan] at hy'
    omega
  induction es generalizing lo with
  | nil => cases ha
  | cons e rest ih =>
    rw [List.flatMap_cons, List.mem_append] at ha hb
    obtain ⟨-, -, hrest⟩ := areAt_cons_iff.1 h
    rcases ha with ha | ha <;> rcases hb with hb | hb
    · exact ⟨e, List.mem_cons_self .., ha, hb⟩
    · exact absurd hspan (happart h ha hb)
    · exact absurd hspan.symm (happart h hb ha)
    · obtain ⟨x, hx, hboth⟩ := ih hrest ha hb
      exact ⟨x, List.mem_cons_of_mem e hx, hboth⟩

/-- A node with none below it is known by its span. -/
theorem eq_of_span_eq {a b : Expr} (h : ∀ m ∈ e.nodes, m.WellSpanned text) (ha : a ∈ e.nodes)
    (hb : b ∈ e.nodes) (hspan : a.span = b.span) (hleaf : a.children = [])
    (hleaf' : b.children = []) : a = b := by
  induction e using Expr.induction with
  | h e ih =>
    rw [nodes_eq] at ha hb
    rcases List.mem_cons.1 ha with rfl | ha'
    · rw [hleaf] at hb
      exact (List.mem_singleton.1 hb).symm
    · rcases List.mem_cons.1 hb with rfl | hb'
      · rw [hleaf'] at ha
        exact List.mem_singleton.1 ha
      · obtain ⟨child, hchild, ha, hb⟩ := (areAt_children h).mem_nodes_of_span_eq ha' hb' hspan
        exact ih child hchild (fun m hm => h m (mem_nodes_of_mem_children hchild hm)) ha hb

end Expr

end Estree
