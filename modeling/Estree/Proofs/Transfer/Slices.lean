import Estree.Proofs.Source.RoundTrip
import Estree.Proofs.Text.Slices
import Estree.Proofs.Transfer.Standing

/-!
# The text under a node

The text under a node of a tree that is read is that node: read alone, it gives the same tree as
many bytes earlier as the node begins (`parseWithin_slice`). A group around an operand is no part of
any node, so the text under a node may have a parenthesis of which the other one is outside; then it
is no expression. Nothing is said of nodes that are only parts of others, and of those that begin
with `typeof`, `void` or `delete` as a name.

The work has been done along the derivation: `Derives.settles` accounts for every node of the tree.
A node that is withheld by none above it and opens with no operator stands in the text, so there is
a piece of the text that is read as the node to the end of the piece. That piece may have more than
the text under the node, as the span of a node does not reach over the parentheses of a group that
it was read in. Two steps lead from the piece to the text under the node.

* The parentheses at both ends of the piece are peeled off, and what has been read stays the node,
  as many bytes earlier (`Stands.alone`). This needs that the parentheses that are left match.
* If they do not match, no tree is read from the text at all, as a text that is read has matching
  parentheses (`matched_of_parseWithin_eq_ok`).

So the parentheses decide: they match exactly if the text under the node is an expression. The
access of `(a).b` shows that they need not, for its text is `a).b`.
-/

namespace Estree

open Text Grammar

namespace Expr

variable {limits : Limits} {source : String} {e n : Expr}

/-- Whether no node of the tree keeps one with the same span to itself. -/
def isApart (e n : Expr) : Bool :=
  e.nodes.all fun m => m.withheld.all fun x => x.span != n.span

/-- A node that stands apart is withheld by no node of the tree. -/
theorem not_mem_withheld (h : isApart e n = true) : ∀ m ∈ e.nodes, n ∉ m.withheld := by
  intro m hm hmem
  have hspan := List.all_eq_true.1 (List.all_eq_true.1 h m hm) n hmem
  exact bne_iff_ne.1 hspan rfl

/-- The text under a node is read alone exactly if its parentheses match, and then as the node. -/
theorem parseWithin_slice (h : parseWithin limits source = .ok e) (hn : n ∈ e.nodes)
    (hpart : ∀ m ∈ e.nodes, n ∉ m.withheld) (hword : n.opensWithOperator = false) :
    ∃ slice, n.span.slice? source = some slice ∧
      (Matched slice.toList → ∀ wide : Limits, wide.exceeded? slice = none →
        4 * (utf8Size slice.toList + 1) ≤ wide.maxDepth →
        ∃ n', parseWithin wide slice = .ok n' ∧ n = n'.movedBy n.span.start) ∧
      (¬Matched slice.toList → ∀ (any : Limits) (n' : Expr), parseWithin any slice ≠ .ok n') := by
  obtain ⟨c', hderives, -⟩ := readsWithin_of_parseWithin_eq_ok h
  have hsettled := hderives.settles (Cursor.isIn_ofString source) e rfl
  have hstands : Stands source.toList n := by
    rcases hsettled n hn with hstands | hopens | ⟨m, hm, hmem⟩
    · exact hstands
    · rw [hword] at hopens
      cases hopens
    · exact absurd hmem (hpart m hm)
  have hspans := parseWithin_wellSpanned h
  obtain ⟨before, slice, after, hsource, hstart, hstop, halone⟩ :=
    hstands.alone fun m hm => hspans m (mem_nodes_trans hn hm)
  refine ⟨String.ofList slice, Span.slice?_eq hsource hstart hstop, ?_,
    fun hunmatched any n' h' => hunmatched (matched_of_parseWithin_eq_ok h')⟩
  intro hmatched wide hlength hdepth
  rw [String.toList_ofList] at hmatched
  obtain ⟨n', hreads, hmoved⟩ := halone hmatched
  exact ⟨n', parseWithin_eq_ok_of_reads hreads hlength hdepth, hmoved⟩

/-- The operand within a group: `a + b` of `(a + b).c`. -/
theorem parseWithin_slice_grouped : ∃ e n, parseWithin .standard "(a + b).c" = .ok e ∧ n ∈ e.nodes ∧
    (∀ m ∈ e.nodes, n ∉ m.withheld) ∧ n.opensWithOperator = false ∧
    n.span.slice? "(a + b).c" = some "a + b" ∧
    ∃ n', parseWithin .standard "a + b" = .ok n' ∧ n = n'.movedBy n.span.start := by
  have hcheck : (parseWithin .standard "(a + b).c").toOption.any (fun e => e.nodes.any fun n =>
      n.span.slice? "(a + b).c" == some "a + b" && !n.opensWithOperator && isApart e n) = true := by
    decide +kernel
  obtain ⟨e, hparse, hcheck⟩ := exists_of_any_toOption hcheck
  obtain ⟨n, hn, hcheck⟩ := List.any_eq_true.1 hcheck
  simp only [Bool.and_eq_true, beq_iff_eq, Bool.not_eq_true'] at hcheck
  obtain ⟨⟨hslice, hword⟩, hapart⟩ := hcheck
  have hpart := not_mem_withheld hapart
  obtain ⟨slice, hslice', hread, -⟩ := parseWithin_slice hparse hn hpart hword
  obtain rfl : "a + b" = slice := Option.some.inj (hslice.symm.trans hslice')
  exact ⟨e, n, hparse, hn, hpart, hword, hslice, hread (by decide) .standard rfl (by decide)⟩

/-- The member access of `(a).b` begins behind the parenthesis, and `a).b` is no expression. -/
theorem not_forall_parseWithin_slice : ¬∀ (limits : Limits) (source : String) (e n : Expr),
    parseWithin limits source = .ok e → n ∈ e.nodes → (∀ m ∈ e.nodes, n ∉ m.withheld) →
      ∃ slice, n.span.slice? source = some slice ∧ ∀ wide : Limits, wide.exceeded? slice = none →
        4 * (utf8Size slice.toList + 1) ≤ wide.maxDepth →
        ∃ n', parseWithin wide slice = .ok n' ∧ n = n'.movedBy n.span.start := by
  intro h
  have hcheck : (parseWithin .standard "(a).b").toOption.any (fun e => e.nodes.any fun n =>
      n.span.slice? "(a).b" == some "a).b" && isApart e n) = true := by
    decide +kernel
  obtain ⟨e, hparse, hcheck⟩ := exists_of_any_toOption hcheck
  obtain ⟨n, hn, hcheck⟩ := List.any_eq_true.1 hcheck
  simp only [Bool.and_eq_true, beq_iff_eq] at hcheck
  obtain ⟨hslice', hapart⟩ := hcheck
  obtain ⟨slice, hslice, hread⟩ :=
    h .standard "(a).b" e n hparse hn (not_mem_withheld hapart)
  obtain rfl : "a).b" = slice := Option.some.inj (hslice'.symm.trans hslice)
  obtain ⟨n', hn', -⟩ := hread .standard rfl (by decide)
  exact absurd (matched_of_parseWithin_eq_ok hn') (by decide)

end Expr

end Estree
