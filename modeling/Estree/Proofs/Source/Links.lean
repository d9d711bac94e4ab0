import Estree.Proofs.Grammar.Derivation

/-!
# Runs link by link

The grammar reads a run of links from the left, and its derivation nests to the right: the rest of a
run is derived below the first link of it. A text is put together the other way round, from the
object to the last link. So the parts of a run are not the parts of its derivation, and an induction
over the tree has nothing to apply its hypothesis to.

> `AccessStep`: one access on its own, from the run that is there before it to the run after it,
> whatever follows.

> `RunsTo`: a run that may still grow. Whatever the grammar reads as the rest of the run from its
> end, it reads together with what came before from its start.

`RunsTo` starts with a primary expression (`runsTo_primary`) and takes one link more at its end, an
access or a call (`RunsTo.accessed`, `RunsTo.called`). When nothing more follows, it is closed to an
operand (`RunsTo.token`), to an update of it or to the callee of a `new` with its arguments
(`RunsTo.construct`). A run after `new` ends at its first call, so that whether there is one
(`hasCall`) is carried along: such a run is only claimed to go on where no `new` is before it.
-/

namespace Estree

namespace Grammar

variable {depth : Nat} {c c₁ c₂ : Cursor} {before after : Links} {access : Access}

/-! ## One link -/

/-- One access, after which accesses go on or not. -/
structure AccessStep (depth : Nat) (before : Links) (access : Access) (c : Cursor)
    (after : Links) (c₁ : Cursor) : Prop where
  last : Token.access? c₁.pastBlanks.rest = none →
    Derives depth (.accesses before access) c after c₁
  next : ∀ {next : Access} {final : Links} {c' : Cursor},
    Token.access? c₁.pastBlanks.rest = some next →
    Derives depth (.member after next) (c₁.pastBlanks.skip next.text.length) final c' →
    Derives depth (.accesses before access) c final c'

/-- An access with an expression between brackets. -/
theorem accessStep_computed {property : Expr} (hcomputed : access.computed = true)
    (hproperty : Derives depth (.sequence false) c (some property) c₁)
    (hclose : c₁.pastBlanks.rest.head? = some ']') :
    AccessStep depth before access c
      (memberLinks before property access (c₁.pastBlanks.skip 1).position)
      (c₁.pastBlanks.skip 1) where
  last hnone := .computedLast hcomputed hproperty hclose hnone
  next hsome hrest := by
    cases hrest with
    | member hrest => exact .computedNext hcomputed hproperty hclose hsome hrest

/-- An access by a name after a point. -/
theorem accessStep_named {property : Expr} (hcomputed : access.computed = false)
    (hparen : c.pastBlanks.rest.head? ≠ some '(')
    (hproperty : Leaf.propertyName c.pastBlanks = .ok property c₁) :
    AccessStep depth before access c (memberLinks before property access property.span.stop)
      c₁ where
  last hnone := .namedLast hcomputed hparen hproperty hnone
  next hsome hrest := by
    cases hrest with
    | member hrest => exact .namedNext hcomputed hparen hproperty hsome hrest

/-- An opening parenthesis instead of a name. -/
theorem accessStep_call {es : List Expr} (hcomputed : access.computed = false)
    (hparen : c.pastBlanks.rest.head? = some '(')
    (hes : Derives depth .arguments (c.pastBlanks.skip 1) es c₁) :
    AccessStep depth before access c
      (callLinks ⟨before.node, before.hasOptional || access.optional⟩ es access.optional
        c₁.position) c₁ where
  last hnone := .accessedCall hcomputed hparen (.callLast hes hnone)
  next hsome hrest := .accessedCall hcomputed hparen (.callNext hes hsome hrest)

/-- An access goes on with a run of links. -/
theorem AccessStep.links {run : Links} {c' : Cursor}
    (hstep : AccessStep depth before access (c.pastBlanks.skip access.text.length) after c₁)
    (haccess : Token.access? c.pastBlanks.rest = some access)
    (hrun : Derives depth (.links after) c₁ run c') : Derives depth (.links before) c run c' := by
  cases hrun with
  | noLink hnone hparen =>
    exact .linkAccess haccess (.member (hstep.last hnone)) (.noLink hnone hparen)
  | linkAccess hsome hbetween hrun =>
    exact .linkAccess haccess (.member (hstep.next hsome hbetween)) hrun
  | linkCall hnone hparen hbetween hrun =>
    exact .linkAccess haccess (.member (hstep.last hnone)) (.linkCall hnone hparen hbetween hrun)

theorem AccessStep.calleeLinks {callee : Callee} {c' : Cursor}
    (hstep : AccessStep depth before access (c.pastBlanks.skip access.text.length) after c₁)
    (haccess : Token.access? c.pastBlanks.rest = some access)
    (hcallee : Derives depth (.calleeLinks after) c₁ callee c') :
    Derives depth (.calleeLinks before) c callee c' := by
  cases hcallee with
  | noCalleeLink hnone hparen =>
    exact .calleeAccess haccess (.member (hstep.last hnone)) (.noCalleeLink hnone hparen)
  | calleeAccess hsome hbetween hcallee =>
    exact .calleeAccess haccess (.member (hstep.next hsome hbetween)) hcallee
  | calleeArguments hnone hparen hes =>
    exact .calleeAccess haccess (.member (hstep.last hnone)) (.calleeArguments hnone hparen hes)

/-- A call goes on with a run of links. -/
theorem links_of_call {es : List Expr} {run : Links} {c' : Cursor}
    (haccess : Token.access? c.pastBlanks.rest = none)
    (hparen : c.pastBlanks.rest.head? = some '(')
    (hes : Derives depth .arguments (c.pastBlanks.skip 1) es c₁)
    (hrun : Derives depth (.links (callLinks before es false c₁.position)) c₁ run c') :
    Derives depth (.links before) c run c' := by
  cases hrun with
  | noLink hnone hnoParen =>
    exact .linkCall haccess hparen (.callLast hes hnone) (.noLink hnone hnoParen)
  | linkAccess hsome hbetween hrun =>
    exact .linkCall haccess hparen (.callNext hes hsome hbetween) hrun
  | linkCall hnone hparen' hbetween hrun =>
    exact .linkCall haccess hparen (.callLast hes hnone) (.linkCall hnone hparen' hbetween hrun)

/-! ## Runs -/

/-- From the cursor `c` the grammar comes to `run` at `c₂`, and goes on from there. After a `new`
it does so too, unless there is a call on the way. -/
structure RunsFrom (depth : Nat) (c : Cursor) (first : Expr) (c₁ : Cursor) (run : Links)
    (hasCall : Bool) (c₂ : Cursor) : Prop where
  primary : Derives depth .primary c (some first) c₁
  links : ∀ {final : Links} {c' : Cursor},
    Derives depth (.links run) c₂ final c' → Derives depth (.links ⟨first, false⟩) c₁ final c'
  callee : hasCall = false → ∀ {callee : Callee} {c' : Cursor},
    Derives depth (.calleeLinks run) c₂ callee c' →
    Derives depth (.calleeLinks ⟨first, false⟩) c₁ callee c'

def RunsTo (depth : Nat) (c : Cursor) (run : Links) (hasCall : Bool) (c₂ : Cursor) : Prop :=
  ∃ first c₁, RunsFrom depth c first c₁ run hasCall c₂

variable {run : Links} {hasCall : Bool}

/-- A run of no links. -/
theorem runsTo_primary {e : Expr} (h : Derives depth .primary c (some e) c₁) :
    RunsTo depth c ⟨e, false⟩ hasCall c₁ :=
  ⟨e, c₁, h, id, fun _ => id⟩

/-- That no call is on the way may be forgotten. -/
theorem RunsTo.withCall (h : RunsTo depth c run hasCall c₂) : RunsTo depth c run true c₂ := by
  obtain ⟨primary, c₁, hprimary, hlinks, -⟩ := h
  exact ⟨primary, c₁, hprimary, hlinks, nofun⟩

/-- An access more at the end of a run. -/
theorem RunsTo.accessed (h : RunsTo depth c run hasCall c₁)
    (haccess : Token.access? c₁.pastBlanks.rest = some access)
    (hstep : AccessStep depth run access (c₁.pastBlanks.skip access.text.length) after c₂) :
    RunsTo depth c after hasCall c₂ := by
  obtain ⟨primary, c₀, hprimary, hlinks, hcallee⟩ := h
  exact ⟨primary, c₀, hprimary, fun hfinal => hlinks (hstep.links haccess hfinal),
    fun hcall _ _ hfinal => hcallee hcall (hstep.calleeLinks haccess hfinal)⟩

/-- A call more at the end of a run, which from then on is no callee of a `new`. -/
theorem RunsTo.called {es : List Expr} (h : RunsTo depth c run hasCall c₁)
    (haccess : Token.access? c₁.pastBlanks.rest = none)
    (hparen : c₁.pastBlanks.rest.head? = some '(')
    (hes : Derives depth .arguments (c₁.pastBlanks.skip 1) es c₂) :
    RunsTo depth c (callLinks run es false c₂.position) true c₂ := by
  obtain ⟨primary, c₀, hprimary, hlinks, -⟩ := h
  exact ⟨primary, c₀, hprimary, fun hfinal => hlinks (links_of_call haccess hparen hes hfinal),
    nofun⟩

/-- A run that nothing goes on with is a token. -/
theorem RunsTo.token (h : RunsTo depth c.pastBlanks run hasCall c₂)
    (haccess : Token.access? c₂.pastBlanks.rest = none)
    (hparen : c₂.pastBlanks.rest.head? ≠ some '(')
    (hupdate : Token.updateOperator? (c₂.skipBlanks false).rest = none) :
    Derives depth .token c (some run.finish) (c₂.skipBlanks false) := by
  obtain ⟨primary, c₁, hprimary, hlinks, -⟩ := h
  exact .token hprimary (hlinks (.noLink haccess hparen)) hupdate

/-- The update of a run that is a place. -/
theorem RunsTo.trailingUpdate {operator : UpdateOperator}
    (h : RunsTo depth c.pastBlanks run hasCall c₂)
    (haccess : Token.access? c₂.pastBlanks.rest = none)
    (hparen : c₂.pastBlanks.rest.head? ≠ some '(')
    (hupdate : Token.updateOperator? (c₂.skipBlanks false).rest = some operator)
    (hplace : run.finish.isPlace = true) :
    Derives depth .token c
      (some (.update
        ⟨run.finish.span.start, ((c₂.skipBlanks false).skip operator.text.length).position⟩
        operator false run.finish))
      ((c₂.skipBlanks false).skip operator.text.length) := by
  obtain ⟨primary, c₁, hprimary, hlinks, -⟩ := h
  exact .trailingUpdate hprimary (hlinks (.noLink haccess hparen)) hupdate hplace

/-- A run without calls and its arguments are read after `new`. -/
theorem RunsTo.construct {start : Nat} {es : List Expr} {c' : Cursor}
    (h : RunsTo depth c.pastBlanks run false c₂)
    (haccess : Token.access? c₂.pastBlanks.rest = none)
    (hparen : c₂.pastBlanks.rest.head? = some '(')
    (hes : Derives depth .arguments (c₂.pastBlanks.skip 1) es c')
    (hoptional : run.hasOptional = false) (hchain : run.node.isChain = false) :
    Derives depth (.construct start) c (.new ⟨start, c'.position⟩ run.node es) c' := by
  obtain ⟨primary, c₁, hprimary, -, hcallee⟩ := h
  exact .construct hprimary (hcallee rfl (.calleeArguments haccess hparen hes)) hoptional hchain

end Grammar

end Estree
