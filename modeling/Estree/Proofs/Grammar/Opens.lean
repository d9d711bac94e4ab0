import Estree.Proofs.Grammar.Completeness

/-!
# Which productions a production opens

`Opens p c q c₁`: to read `p` from `c`, the production `q` may be read from `c₁`, with as many
levels. `Nests p q`: `p` is nothing but `q` one level further down. All recursion of the grammar
goes along these two, so a count that falls along them bounds how many productions are open at a
time: `rank` and `levels` are two such counts.

Along `Opens` either a character has been taken in between, and then every count may start anew, or
the rank is lower and no more levels are open (`Opens.lower`). Along `Nests` both fall. For a loop
that goes on with an access, that a character has been taken is not seen at the place where the loop
begins, as the access stands right before it; so `TakesAccess` keeps in mind from where it was.
-/

namespace Estree

namespace Cursor

variable {c c₁ c₂ : Cursor}

/-- The second cursor is further on in the text. -/
structure ReachesPast (c c₁ : Cursor) : Prop where
  reaches : c.Reaches c₁
  length_lt : c₁.rest.length < c.rest.length

/-- Further on from a place further on. -/
theorem Reaches.past (h₁ : c.Reaches c₁) (h₂ : c₁.ReachesPast c₂) : c.ReachesPast c₂ :=
  ⟨h₁.trans h₂.reaches, h₂.length_lt.trans_le h₁.length_le⟩

/-- Further on from a place that is past. -/
theorem ReachesPast.upTo (h₁ : c.ReachesPast c₁) (h₂ : c₁.Reaches c₂) : c.ReachesPast c₂ :=
  ⟨h₁.reaches.trans h₂, h₂.length_le.trans_lt h₁.length_lt⟩

/-- Skipping some characters of some moves on. -/
theorem reachesPast_skip {n : Nat} (h : 0 < c.rest.length ∧ 0 < n) : c.ReachesPast (c.skip n) :=
  ⟨c.reaches_skip n, length_skip_of_pos h⟩

/-- Skipping a character that stands there moves on. -/
theorem reachesPast_char {x : Char} (h : c.rest.head? = some x) : c.ReachesPast (c.skip 1) :=
  reachesPast_skip ⟨length_pos_of_head? h, Nat.one_pos⟩

/-- An access has been taken just before the second cursor. -/
structure TakesAccess (c : Cursor) (access : Access) (c₁ : Cursor) : Prop where
  reaches : ∃ c₀, c.Reaches c₀ ∧ Token.access? c₀.pastBlanks.rest = some access ∧
    c₁ = c₀.pastBlanks.skip access.text.length

/-- An access may be taken from any place before it. -/
theorem Reaches.takesAccess {access : Access} (h : c.Reaches c₁)
    (haccess : Token.access? c₁.pastBlanks.rest = some access) :
    c.TakesAccess access (c₁.pastBlanks.skip access.text.length) :=
  ⟨c₁, h, haccess, rfl⟩

/-- An access that is taken has been so from any place before. -/
theorem TakesAccess.from {access : Access} (h₂ : c₁.TakesAccess access c₂) (h₁ : c.Reaches c₁) :
    c.TakesAccess access c₂ := by
  obtain ⟨c₀, hc₀, haccess, hc₂⟩ := h₂.reaches
  exact ⟨c₀, h₁.trans hc₀, haccess, hc₂⟩

/-- Behind an access the cursor is past the place before it. -/
theorem TakesAccess.reachesPast {access : Access} (h : c.TakesAccess access c₁) :
    c.ReachesPast c₁ := by
  obtain ⟨c₀, hc₀, haccess, rfl⟩ := h.reaches
  exact (hc₀.trans c₀.reaches_pastBlanks).past (reachesPast_skip (Token.access?_pos haccess))

end Cursor

namespace Grammar

open Cursor

/-- The production is another one, one level further down. -/
inductive Nests : Production → Production → Prop
  | expression : Nests .expression .conditional
  | operands {least : Nat} : Nests (.operands least) (.climb least)
  | unary : Nests .unary .unaryForm
  | primary : Nests .primary .primaryForm

/-- The production at one cursor may read another one from a cursor, with as many levels. -/
inductive Opens : Production → Cursor → Production → Cursor → Prop
  | ungrouped {c c₁ : Cursor} : c.Reaches c₁ → Opens (.sequence false) c (.expressions true) c₁
  | grouped {c c₁ : Cursor} : c.ReachesPast c₁ → Opens (.sequence true) c (.expressions true) c₁
  | item {c : Cursor} {isFirst : Bool} : Opens (.expressions isFirst) c .expression c
  | moreItems {c c₁ : Cursor} {isFirst : Bool} : c.ReachesPast c₁ →
      Opens (.expressions isFirst) c (.expressions false) c₁
  | test {c : Cursor} : Opens .conditional c (.operands 1) c
  | branch {c c₁ : Cursor} : c.ReachesPast c₁ → Opens .conditional c .expression c₁
  | left {c c₁ : Cursor} {least : Nat} : c.Reaches c₁ → Opens (.climb least) c .unary c₁
  | joins {c c₁ : Cursor} {least least' : Nat} {climbed : Climbed} {isBareUnary : Bool} :
      c.Reaches c₁ → Opens (.climb least) c (.infixes least' climbed isBareUnary) c₁
  | right {c c₁ : Cursor} {least : Nat} {climbed : Climbed} {isBareUnary : Bool}
      {operator : InfixOperator} : c.ReachesPast c₁ →
      Opens (.infixes least climbed isBareUnary) c (.operands operator.rightPrecedence) c₁
  | moreJoins {c c₁ : Cursor} {least least' : Nat} {climbed climbed' : Climbed}
      {isBareUnary isBareUnary' : Bool} : c.ReachesPast c₁ →
      Opens (.infixes least climbed isBareUnary) c (.infixes least' climbed' isBareUnary') c₁
  | bare {c c₁ : Cursor} : c.Reaches c₁ → Opens .unaryForm c .token c₁
  | argument {c c₁ : Cursor} : c.ReachesPast c₁ → Opens .unaryForm c .unary c₁
  | head {c c₁ : Cursor} : c.Reaches c₁ → Opens .token c .primary c₁
  | run {c c₁ : Cursor} {before : Links} : c.Reaches c₁ → Opens .token c (.links before) c₁
  | linkMember {c c₁ : Cursor} {before before' : Links} {access : Access} :
      c.TakesAccess access c₁ → Opens (.links before) c (.member before' access) c₁
  | linkCall {c c₁ : Cursor} {before before' : Links} {optional : Bool} : c.ReachesPast c₁ →
      Opens (.links before) c (.call before' optional) c₁
  | moreLinks {c c₁ : Cursor} {before before' : Links} : c.ReachesPast c₁ →
      Opens (.links before) c (.links before') c₁
  | group {c : Cursor} : Opens .primaryForm c (.sequence true) c
  | update {c c₁ : Cursor} {operator : UpdateOperator} {start : Nat} : c.ReachesPast c₁ →
      Opens .primaryForm c (.updated operator start) c₁
  | new {c c₁ : Cursor} {start : Nat} : c.ReachesPast c₁ →
      Opens .primaryForm c (.construct start) c₁
  | bracket {c c₁ : Cursor} {start : Nat} : c.ReachesPast c₁ →
      Opens .primaryForm c (.array start) c₁
  | member {c : Cursor} {before before' : Links} {access : Access} :
      Opens (.member before access) c (.accesses before' access) c
  | computed {c : Cursor} {before : Links} {access : Access} :
      Opens (.accesses before access) c (.sequence false) c
  | moreAccesses {c c₁ : Cursor} {before before' : Links} {access next : Access} :
      c.TakesAccess next c₁ → Opens (.accesses before access) c (.accesses before' next) c₁
  | handover {c : Cursor} {before before' : Links} {access : Access} {optional : Bool} :
      access.computed = false → c.pastBlanks.rest.head? = some '(' →
      Opens (.accesses before access) c (.call before' optional) (c.pastBlanks.skip 1)
  | callArguments {c : Cursor} {before : Links} {optional : Bool} :
      Opens (.call before optional) c .arguments c
  | callMember {c c₁ : Cursor} {before before' : Links} {access : Access} {optional : Bool} :
      c.TakesAccess access c₁ → Opens (.call before optional) c (.member before' access) c₁
  | argumentList {c : Cursor} : Opens .arguments c .argumentList c
  | listed {c : Cursor} : Opens .argumentList c .expression c
  | moreArguments {c c₁ : Cursor} : c.ReachesPast c₁ → Opens .argumentList c .argumentList c₁
  | callee {c c₁ : Cursor} {start : Nat} : c.Reaches c₁ → Opens (.construct start) c .primary c₁
  | calleeRun {c c₁ : Cursor} {start : Nat} {before : Links} : c.Reaches c₁ →
      Opens (.construct start) c (.calleeLinks before) c₁
  | calleeMember {c c₁ : Cursor} {before before' : Links} {access : Access} :
      c.TakesAccess access c₁ → Opens (.calleeLinks before) c (.member before' access) c₁
  | moreCalleeLinks {c c₁ : Cursor} {before before' : Links} : c.ReachesPast c₁ →
      Opens (.calleeLinks before) c (.calleeLinks before') c₁
  | calleeArguments {c c₁ : Cursor} {before : Links} : c.ReachesPast c₁ →
      Opens (.calleeLinks before) c .arguments c₁
  | place {c : Cursor} {operator : UpdateOperator} {start : Nat} :
      Opens (.updated operator start) c .token c
  | elements {c : Cursor} {start : Nat} : Opens (.array start) c .elements c
  | element {c : Cursor} : Opens .elements c .expression c
  | moreElements {c c₁ : Cursor} : c.ReachesPast c₁ → Opens .elements c .elements c₁

variable {p q : Production} {c c₁ : Cursor}

/-- Reading goes on where the production stands or further on. -/
theorem Opens.reaches (h : Opens p c q c₁) : c.Reaches c₁ := by
  cases h with
  | ungrouped h | left h | joins h | bare h | head h | run h | callee h | calleeRun h => exact h
  | linkMember h | moreAccesses h | callMember h | calleeMember h => exact h.reachesPast.reaches
  | handover => exact c.reaches_pastBlanks_skip 1
  | item | test | group | member | computed | callArguments | argumentList | listed | place
  | elements | element => exact .refl c
  | _ h => exact h.reaches

/-- Without a character taken before it, only productions of a lower rank are opened, and none that
may open more levels. -/
theorem Opens.lower (h : Opens p c q c₁) :
    c₁.rest.length < c.rest.length ∨ rank q < rank p ∧ levels q ≤ levels p := by
  cases h with
  | linkMember h | moreAccesses h | callMember h | calleeMember h =>
    exact Or.inl h.reachesPast.length_lt
  | handover _ hparen => exact Or.inl (length_skip_char_lt hparen)
  | grouped h | moreItems h | branch h | right h | moreJoins h | argument h | linkCall h
  | moreLinks h | update h | new h | bracket h | moreArguments h | moreCalleeLinks h
  | calleeArguments h | moreElements h => exact Or.inl h.length_lt
  | _ => exact Or.inr (by simp [rank, levels])

/-- One level further down the rank is lower. -/
theorem Nests.rank_lt (h : Nests p q) : rank q < rank p := by
  cases h <;> simp [rank]

/-- One level further down there is one level less to be opened. -/
theorem Nests.levels_lt (h : Nests p q) : levels q < levels p := by
  cases h <;> simp [levels]

end Grammar

end Estree
