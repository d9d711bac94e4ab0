import Estree.Proofs.Source.Text
import Estree.Proofs.Expr.Unplaced

/-!
# Trees that are not written

The writing refuses a tree when it comes upon a defect. There are four kinds, each of one node and
the nodes right below it: a short sequence, a name after a point that is no identifier, an update of
something that is no place, a chain right within a chain (`HasDefect`).

> `toSource_eq_error_iff`: of trees with spelled literals, those are refused that have a defect at
> some node, at whatever depth, and no others.

> `toSource_eq_error_iff_first`: of several defects the first one in the order of writing is the one
> that is reported.

The second says more and the first follows from what it rests on: the writing is the text unless
some inspected node has a defect (`sourceText_eq`), and the inspected nodes are all nodes of the
tree in the order of writing, where an object comes before the access by name to it.

What is a matter of nodes further apart is not looked at: whether an optional link is within a
chain, and whether a chain has one (`toSource_unchained`).
-/

namespace Estree

namespace Expr

open Source

variable {e : Expr} {malformed : Malformed}

/-! ## Defects of a node -/

/-- The node has this defect, whatever else is in the tree. -/
inductive HasDefect : Expr → Malformed → Prop
  | shortSequence {span : Span} {es : List Expr} : es.length < 2 →
    HasDefect (sequence span es) .shortSequence
  | propertyNotIdentifier {span : Span} {object property : Expr} {optional : Bool} :
    property.isIdentifier = false →
    HasDefect (member span object property false optional) .propertyNotIdentifier
  | updateTarget {span : Span} {operator : UpdateOperator} {leading : Bool} {argument : Expr} :
    argument.isPlace = false → HasDefect (update span operator leading argument) .updateTarget
  | nestedChain {span inner : Span} {expression : Expr} :
    HasDefect (chain span (chain inner expression)) .nestedChain

/-- The defect that the writing finds at a node is the one that it has. -/
theorem defect?_eq_some_iff : e.defect? = some malformed ↔ e.HasDefect malformed := by
  constructor
  · intro h
    cases e with
    | sequence span es =>
      obtain ⟨hlength, ⟨⟩⟩ := (Option.ite_none_right_eq_some ..).1 h
      exact .shortSequence hlength
    | member span object property computed optional =>
      cases computed with
      | true => cases h
      | false =>
        obtain ⟨hname, ⟨⟩⟩ := (Option.ite_none_left_eq_some ..).1 h
        exact .propertyNotIdentifier (Bool.eq_false_iff.2 hname)
    | chain span expression =>
      obtain ⟨hchain, ⟨⟩⟩ := (Option.ite_none_right_eq_some ..).1 h
      cases expression with
      | chain inner expression => exact .nestedChain
      | _ => cases hchain
    | update span operator leading argument =>
      obtain ⟨hplace, ⟨⟩⟩ := (Option.ite_none_right_eq_some ..).1 h
      exact .updateTarget (by simpa using hplace)
    | _ => cases h
  · rintro (hlength | hname | hplace | _)
    · exact if_pos hlength
    · exact if_neg (Bool.eq_false_iff.1 hname)
    · exact if_pos (by simpa using hplace)
    · rfl

/-! ## What is refused -/

/-- The writing reports the first defect that it comes upon. -/
theorem toSource_eq_error_iff_firstDefect? (hspelled : ∀ n ∈ e.nodes, n.HasSpelling) :
    e.toSource = .error malformed ↔ e.firstDefect? = some malformed := by
  have hsource : e.toSource = outcome e.firstDefect? (String.ofList e.text) :=
    outcome_map (sourceText_eq hspelled) String.ofList
  rw [hsource, outcome_eq_error_iff]

/-- A tree with a defect is refused, wherever the defect is, and no other. -/
theorem refused_iff_exists_defect (hspelled : ∀ n ∈ e.nodes, n.HasSpelling) :
    (∃ malformed, e.toSource = .error malformed) ↔
      ∃ n ∈ e.nodes, ∃ malformed, n.HasDefect malformed := by
  simp only [toSource_eq_error_iff_firstDefect? hspelled, ← defect?_eq_some_iff,
    ← Option.isSome_iff_exists]
  rw [firstDefect?, List.isSome_findSome?, List.any_eq_true]
  simp only [mem_inspected_iff]

/-- The test for a defect, with its kind. -/
theorem isDefective_iff : e.isDefective = true ↔ ∃ malformed, e.HasDefect malformed := by
  simp only [isDefective_eq, ← defect?_eq_some_iff, Option.isSome_iff_exists]

/-- The writing refuses a tree whose literals are spelled if, and only if, some node is a sequence
of fewer than two, an access by a name that is no identifier, an update of no place or a chain right
around a chain. -/
theorem toSource_eq_error_iff (hspelled : ∀ n ∈ e.nodes, n.HasSpelling) :
    (∃ malformed, e.toSource = .error malformed) ↔ ∃ n ∈ e.nodes, n.isDefective = true := by
  simp only [isDefective_iff]
  exact refused_iff_exists_defect hspelled

/-- An empty sequence as the argument of a call is come upon. -/
theorem toSource_eq_error_iff_call :
    let e := call nowhere (identifier nowhere "a") [sequence nowhere []] false
    (∀ n ∈ e.nodes, n.HasSpelling) ∧ ∃ malformed, e.toSource = .error malformed := by
  intro e
  have hnodes : e.nodes = [e, identifier nowhere "a", sequence nowhere []] := rfl
  have hspelled : ∀ n ∈ e.nodes, n.HasSpelling := by
    intro n hn
    simp only [hnodes, List.mem_cons, List.not_mem_nil, or_false] at hn
    rcases hn with rfl | rfl | rfl
    · exact trivial
    · exact trivial
    · exact trivial
  have hmem : sequence nowhere [] ∈ e.nodes := by simp [hnodes]
  exact ⟨hspelled, (toSource_eq_error_iff hspelled).2 ⟨_, hmem, rfl⟩⟩

/-! ## Which defect is reported -/

/-- A node of a tree whose literals are spelled is reported wherever it stands, and no tree without
defects is refused. Of several defects the one of the first node is reported, in the order of
writing. -/
theorem toSource_eq_error_iff_first (hspelled : ∀ n ∈ e.nodes, n.HasSpelling) :
    ((∃ malformed, e.toSource = .error malformed) ↔
      ∃ n ∈ e.nodes, ∃ malformed, n.HasDefect malformed) ∧
    ∀ malformed, e.toSource = .error malformed ↔
      ∃ before n after, e.inspected = before ++ n :: after ∧ n.HasDefect malformed ∧
        ∀ m ∈ before, ∀ other, ¬m.HasDefect other := by
  have hsound : ∀ m : Expr, m.defect? = none ↔ ∀ other, ¬m.HasDefect other := fun m => by
    simp only [Option.eq_none_iff_forall_ne_some, ne_eq, defect?_eq_some_iff]
  refine ⟨refused_iff_exists_defect hspelled, fun malformed => ?_⟩
  rw [toSource_eq_error_iff_firstDefect? hspelled, firstDefect?, List.findSome?_eq_some_iff]
  simp only [defect?_eq_some_iff, hsound]

/-- An object is written before the name after the point is looked at, so that a chain within it is
reported and the name is not. -/
theorem toSource_eq_error_iff_first_member :
    let object := array nowhere [none, some (chain nowhere (chain nowhere (this nowhere)))]
    let e := member nowhere object (this nowhere) false true
    (∀ n ∈ e.nodes, n.HasSpelling) ∧ e.HasDefect .propertyNotIdentifier ∧
      e.toSource = .error .nestedChain := by
  intro object e
  have hspelled : ∀ n ∈ e.nodes, n.HasSpelling := by
    intro n hn
    simp only [e, object, nodes, nodesOfSlots, List.append_nil, List.mem_cons, List.mem_append,
      List.not_mem_nil, or_false] at hn
    rcases hn with rfl | (rfl | rfl | rfl | rfl) | rfl <;> trivial
  have hfirst : e.inspected = [object] ++ chain nowhere (chain nowhere (this nowhere)) ::
      [chain nowhere (this nowhere), this nowhere, e, this nowhere] := rfl
  refine ⟨hspelled, .propertyNotIdentifier rfl, ?_⟩
  refine ((toSource_eq_error_iff_first hspelled).2 .nestedChain).2
    ⟨_, _, _, hfirst, .nestedChain, fun m hm other hdefect => ?_⟩
  obtain rfl := List.mem_singleton.1 hm
  change (array _ _).HasDefect other at hdefect
  cases hdefect

/-! ## What is not refused -/

/-- Every literal spells its value, and every identifier has a name, which is no reserved word
unless it stands after a point. -/
structure HasValidLeaves (e : Expr) : Prop where
  literals : ∀ span raw value, literal span raw value ∈ e.nodes → Spells raw value
  identifiers : ∀ span name, identifier span name ∈ e.nodes → IsName name
  name : e.HasFreeName
  names : ∀ n ∈ e.nodes, ∀ x ∈ n.operands, x.HasFreeName

/-- Neither an optional link outside of chains, nor a chain without one, nor a chain as what `new`
is applied to is come upon. -/
theorem toSource_unchained :
    let link := member nowhere (identifier nowhere "a") (identifier nowhere "b") false true
    let callee := chain nowhere (identifier nowhere "c")
    let e := new nowhere callee [link]
    e.HasValidLeaves ∧ e.at? [1] = some link ∧ link.isOptional = true ∧
      (¬∃ top, InChain e top [1]) ∧ callee.isChain = true ∧
      (identifier nowhere "c").hasOptionalLink = false ∧ e.toSource = .ok "new (c)(a?.b)" := by
  intro link callee e
  have hnodes : e.nodes = [e, callee, identifier nowhere "c", link, identifier nowhere "a",
    identifier nowhere "b"] := rfl
  have ha : IsName "a" := ⟨'a', [], rfl, rfl, nofun⟩
  have hb : IsName "b" := ⟨'b', [], rfl, rfl, nofun⟩
  have hc : IsName "c" := ⟨'c', [], rfl, rfl, nofun⟩
  have hleaves : e.HasValidLeaves := by
    refine ⟨?_, ?_, trivial, ?_⟩
    · intro span raw value h
      simp [hnodes, e, callee, link] at h
    · intro span name h
      simp only [hnodes, e, callee, link, List.mem_cons, List.not_mem_nil, identifier.injEq,
        reduceCtorEq, false_or, or_false] at h
      rcases h with ⟨-, rfl⟩ | ⟨-, rfl⟩ | ⟨-, rfl⟩
      · exact hc
      · exact ha
      · exact hb
    · intro n hn x hx
      simp only [hnodes, List.mem_cons, List.not_mem_nil, or_false] at hn
      rcases hn with rfl | rfl | rfl | rfl | rfl | rfl
      · rcases List.mem_cons.1 hx with rfl | hx
        · exact trivial
        · obtain rfl := List.mem_singleton.1 hx
          exact trivial
      · obtain rfl := List.mem_singleton.1 hx
        exact ⟨hc, by decide⟩
      · cases hx
      · obtain rfl := List.mem_singleton.1 hx
        exact ⟨ha, by decide⟩
      · cases hx
      · cases hx
  have hin : ¬∃ top, InChain e top [1] := by
    rintro ⟨top, h⟩
    obtain ⟨hzero, -⟩ := inChain_append_singleton (show InChain e top ([] ++ [1]) from h)
    exact absurd hzero Nat.one_ne_zero
  exact ⟨hleaves, rfl, rfl, hin, rfl, rfl, rfl⟩

end Expr

end Estree
