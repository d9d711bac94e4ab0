import Mathlib.Logic.Relation
import Estree.Proofs.Grammar.Stops
import Estree.Proofs.Transfer.Ends

/-!
# Runs that end early

A run of member accesses and calls grows link by link, and so does a row of operands operator by
operator. The grammar reads both as far as they go; where the text ends after one of the links or
operands, it reads what has grown up to there. To say so, a run is taken apart into its steps
(`Link`, `Join`), whichever production has read them: a step is taken at the same place of another
text, and so are the steps up to any point (`Portable`), and from steps a reading is put together
again (`Linked.derives`, `Joined.derives`).

The grammar does not read a run link by link: accesses that follow each other are read in one
production, and a call may take over from an access in the middle. So `Linked.derives_or` is not a
mere induction on steps. It says what the productions read that are in progress at a step: the run
from its beginning, or the accesses from the one before the step.

A step carries a predicate on the trees that are read within it, in brackets or as arguments. The
predicate lets a proof about all nodes of a run go over the steps and have what it needs of the
trees in them.
-/

namespace Estree

open Text Relation

namespace Grammar

variable {P : Expr → Prop} {depth : Nat} {c c' c₁ d d' : Cursor} {piece : List Char}

/-! ## Links -/

/-- A run grows by a link: from the place before it, and the run there, to the place behind it, and
the run with the link. What is read in brackets or as an argument has the property. -/
inductive Link (P : Expr → Prop) (depth : Nat) : Cursor × Links → Cursor × Links → Prop
  | named {c c' : Cursor} {before : Links} {access : Access} {property : Expr} :
    Token.access? c.pastBlanks.rest = some access → access.computed = false →
    Leaf.propertyName (c.pastBlanks.skip access.text.length).pastBlanks = .ok property c' →
    Link P depth (c, before) (c', memberLinks before property access property.span.stop)
  | computed {c c' : Cursor} {before : Links} {access : Access} {property : Expr} :
    Token.access? c.pastBlanks.rest = some access → access.computed = true →
    Derives depth (.sequence false) (c.pastBlanks.skip access.text.length) (some property) c' →
    P property → c'.pastBlanks.rest.head? = some ']' →
    Link P depth (c, before)
      (c'.pastBlanks.skip 1, memberLinks before property access (c'.pastBlanks.skip 1).position)
  | accessedCall {c c' : Cursor} {before : Links} {access : Access} {es : List Expr} :
    Token.access? c.pastBlanks.rest = some access → access.computed = false →
    (c.pastBlanks.skip access.text.length).pastBlanks.rest.head? = some '(' →
    Derives depth .arguments ((c.pastBlanks.skip access.text.length).pastBlanks.skip 1) es c' →
    (∀ e ∈ es, P e) →
    Link P depth (c, before) (c', callLinks ⟨before.node, before.hasOptional || access.optional⟩ es
      access.optional c'.position)
  | call {c c' : Cursor} {before : Links} {es : List Expr} :
    c.pastBlanks.rest.head? = some '(' → Derives depth .arguments (c.pastBlanks.skip 1) es c' →
    (∀ e ∈ es, P e) →
    Link P depth (c, before) (c', callLinks before es false c'.position)

/-- A run grows by any number of links. -/
abbrev Linked (P : Expr → Prop) (depth : Nat) : Cursor × Links → Cursor × Links → Prop :=
  ReflTransGen (Link P depth)

variable {s t : Cursor × Links} {before after : Links}

/-- Links that are put together are read. If the first one begins as a member access, the accesses
that follow one another are read in one go, and the rest after them. -/
theorem Linked.derives_or (h : Linked P depth s t) (hend : t.1.HasNoLink) :
    Derives depth (.links s.2) s.1 t.2 t.1 ∧
      ∀ access ∈ Token.access? s.1.pastBlanks.rest, ∃ between c₁,
        Derives depth (.accesses s.2 access) (s.1.pastBlanks.skip access.text.length) between c₁ ∧
          Derives depth (.links between) c₁ t.2 t.1 := by
  induction h using ReflTransGen.head_induction_on with
  | refl =>
    refine ⟨.noLink hend.access hend.paren, fun access haccess => ?_⟩
    rw [hend.access] at haccess
    cases haccess
  | @head s s₁ hlink _ ih =>
    obtain ⟨hlinks, hnext⟩ := ih
    -- All that begin with an access are read by `accesses`, and the others as calls.
    have hfirst : ∀ access, Token.access? s.1.pastBlanks.rest = some access →
        (∃ between c₁, Derives depth (.accesses s.2 access)
          (s.1.pastBlanks.skip access.text.length) between c₁ ∧
            Derives depth (.links between) c₁ t.2 t.1) →
        Derives depth (.links s.2) s.1 t.2 t.1 ∧
          ∀ access ∈ Token.access? s.1.pastBlanks.rest, ∃ between c₁,
            Derives depth (.accesses s.2 access) (s.1.pastBlanks.skip access.text.length) between
                c₁ ∧
              Derives depth (.links between) c₁ t.2 t.1 := by
      rintro access haccess ⟨between, c₁, hbetween, hrest⟩
      refine ⟨.linkAccess haccess (.member hbetween) hrest, fun access' haccess' => ?_⟩
      obtain rfl : access = access' := Option.some.inj (haccess.symm.trans haccess')
      exact ⟨between, c₁, hbetween, hrest⟩
    -- Behind a call the grammar looks for an access at once, so the two cases are put together
    -- here.
    have hcall : ∀ {before : Links} {optional : Bool} {c c' : Cursor} {es : List Expr},
        Derives depth .arguments c es c' →
        s₁ = (c', callLinks before es optional c'.position) →
        ∃ between c₁, Derives depth (.call before optional) c between c₁ ∧
          Derives depth (.links between) c₁ t.2 t.1 := by
      rintro before optional c c' es hes rfl
      cases hop : Token.access? c'.pastBlanks.rest with
      | none => exact ⟨_, _, .callLast hes hop, hlinks⟩
      | some next =>
        obtain ⟨between, c₁, hbetween, hrest⟩ := hnext next hop
        exact ⟨between, c₁, .callNext hes hop (.member hbetween), hrest⟩
    cases hlink with
    | @named c c' before access property haccess hcomputed hname =>
      refine hfirst access haccess ?_
      have hparen : (c.pastBlanks.skip access.text.length).pastBlanks.rest.head? ≠ some '(' :=
        head?_ne_of_leadingWord rfl (Leaf.propertyName_eq_ok.1 hname).1 (by decide)
      cases hop : Token.access? c'.pastBlanks.rest with
      | none => exact ⟨_, _, .namedLast hcomputed hparen hname hop, hlinks⟩
      | some next =>
        obtain ⟨between, c₁, hbetween, hrest⟩ := hnext next hop
        exact ⟨between, c₁, .namedNext hcomputed hparen hname hop hbetween, hrest⟩
    | @computed c c' before access property haccess hcomputed hproperty _ hclose =>
      refine hfirst access haccess ?_
      cases hop : Token.access? (c'.pastBlanks.skip 1).pastBlanks.rest with
      | none => exact ⟨_, _, .computedLast hcomputed hproperty hclose hop, hlinks⟩
      | some next =>
        obtain ⟨between, c₁, hbetween, hrest⟩ := hnext next hop
        exact ⟨between, c₁, .computedNext hcomputed hproperty hclose hop hbetween, hrest⟩
    | accessedCall haccess hcomputed hopen hes _ =>
      refine hfirst _ haccess ?_
      obtain ⟨between, c₁, hbetween, hrest⟩ := hcall hes rfl
      exact ⟨between, c₁, .accessedCall hcomputed hopen hbetween, hrest⟩
    | call hopen hes _ =>
      have hnone := access?_openParen hopen
      obtain ⟨between, c₁, hbetween, hrest⟩ := hcall hes rfl
      refine ⟨.linkCall hnone hopen hbetween hrest, fun access haccess => ?_⟩
      rw [hnone] at haccess
      cases haccess

/-- Links are read one after the other, where none follows. -/
theorem Linked.derives (h : Linked P depth s t) (hend : t.1.HasNoLink) :
    Derives depth (.links s.2) s.1 t.2 t.1 :=
  (h.derives_or hend).1

/-! ## Links at the same place of another text -/

/-- Pieces that are kept one after the other. -/
theorem passes_still_append {first : List Char} (hd : d.Passes (first ++ piece) d') :
    d.Passes ((Template.keep first ++ Template.keep piece).new Transfer.still.text) d' :=
  hd.of_eq (by rw [Template.new_append, Template.new_keep, Template.new_keep])

/-- The beginning of an access is found at the same place, with what comes after it. -/
theorem access_elsewhere {access : Access} (haccess : Token.access? c.pastBlanks.rest = some access)
    (hc : (c.pastBlanks.skip access.text.length).Passes piece c')
    (hd : d.Passes (c.blanks ++ access.text.toList ++ piece) d')
    (hposition : c.position = d.position) (hbeside : Beside c'.rest d'.rest) :
    Token.access? d.pastBlanks.rest = some access ∧ Follows false c.rest d.rest ∧
      (d.pastBlanks.skip access.text.length).Passes piece d' ∧
      (c.pastBlanks.skip access.text.length).position =
        (d.pastBlanks.skip access.text.length).position := by
  have hcovers : Covers Transfer.still.at? (c.pastBlanks.skip access.text.length)
      (Template.keep piece) c' := .keep hc
  obtain ⟨haccess', hfollows, hd', hposition'⟩ :=
    hcovers.enterAccess hposition haccess (passes_still_append hd) hbeside
  rw [Template.new_keep] at hd'
  exact ⟨haccess', hfollows, hd', hposition'⟩

/-- A character is found behind the same blanks, with what comes after it. -/
theorem char_elsewhere {x : Char} (hhead : c.pastBlanks.rest.head? = some x)
    (hd : d.Passes (c.blanks ++ [x] ++ piece) d') (hposition : c.position = d.position) :
    d.pastBlanks.rest.head? = some x ∧ (d.pastBlanks.skip 1).Passes piece d' ∧
      (c.pastBlanks.skip 1).position = (d.pastBlanks.skip 1).position ∧
      ∀ takesComma : Bool, Follows takesComma c.pastBlanks.rest d.pastBlanks.rest →
        Follows takesComma c.rest d.rest := by
  obtain ⟨hblanks, hhead', hd', hposition'⟩ :=
    @Covers.enterChar Transfer.still c d d' (Template.keep piece) x hposition hhead
      (passes_still_append hd)
  rw [Template.new_keep] at hd'
  exact ⟨hhead', hd', hposition', fun _ => hblanks.follows⟩

/-- Between an opening parenthesis behind blanks and what comes behind the arguments. -/
theorem arguments_elsewhere {es : List Expr} (hopen : c.pastBlanks.rest.head? = some '(')
    (hes : Derives depth .arguments (c.pastBlanks.skip 1) es c')
    (hc : (c.pastBlanks.skip 1).Passes piece c') (hd : d.Passes (c.blanks ++ ['('] ++ piece) d')
    (hposition : c.position = d.position) (hfollows : Follows false c'.rest d'.rest) :
    d.pastBlanks.rest.head? = some '(' ∧ Derives depth .arguments (d.pastBlanks.skip 1) es d' ∧
      c'.position = d'.position ∧ Follows false c.rest d.rest := by
  obtain ⟨hopen', hd', hposition', hblanks⟩ := char_elsewhere hopen hd hposition
  refine ⟨hopen', (hes.elsewhere hc hd' hposition' hfollows).1, ?_,
    hblanks _ (follows_char _ hopen hopen' (by decide))⟩
  rw [hc.position_eq, hd'.position_eq, hposition']

/-- The beginning of an access, behind blanks. -/
theorem passes_access {access : Access} (haccess : Token.access? c.pastBlanks.rest = some access) :
    c.Passes (c.blanks ++ access.text.toList) (c.pastBlanks.skip access.text.length) := by
  obtain ⟨rest, hrest⟩ := Token.access?_eq_some haccess
  have hpass := Cursor.passes_skip hrest
  rw [String.length_toList] at hpass
  exact c.passes_blanks.trans hpass

/-- Past blanks and one character the cursor has passed them. -/
theorem passes_char {x : Char} (h : c.pastBlanks.rest.head? = some x) :
    c.Passes (c.blanks ++ [x]) (c.pastBlanks.skip 1) :=
  c.passes_blanks.trans (Cursor.passes_skip (Cursor.rest_eq_cons_skip h))

/-- Steps that are taken at the same place of another text, if what follows them stops them as
before. -/
def Portable {α : Type} (step : Cursor × α → Cursor × α → Prop) : Prop :=
  ∀ {s t : Cursor × α}, step s t → ∃ piece, s.1.Passes piece t.1 ∧
    ∀ {d d' : Cursor}, d.Passes piece d' → s.1.position = d.position →
      Follows false t.1.rest d'.rest → step (d, s.2) (d', t.2) ∧ Follows false s.1.rest d.rest

/-- So are any number of them. -/
theorem Portable.reflTransGen {α : Type} {step : Cursor × α → Cursor × α → Prop}
    (hstep : Portable step) : Portable (ReflTransGen step) := by
  intro s t h
  induction h using ReflTransGen.head_induction_on with
  | refl =>
    refine ⟨[], .refl _, fun {d d'} hd _ hfollows => ?_⟩
    obtain rfl := hd.eq_of_nil
    exact ⟨.refl, hfollows⟩
  | @head s s₁ hfirst _ ih =>
    obtain ⟨first, hpass, hfirst⟩ := hstep hfirst
    obtain ⟨piece, hpiece, hrest⟩ := ih
    refine ⟨_, hpass.trans hpiece, fun {d d'} hd hposition hfollows => ?_⟩
    obtain ⟨hd₁, hd₂⟩ := hd.split
    have hposition₁ : s₁.1.position = (d.skip first.length).position := by
      rw [hpass.position_eq, hd₁.position_eq, hposition]
    obtain ⟨hrest', hfollows₁⟩ := hrest hd₂ hposition₁ hfollows
    obtain ⟨hfirst', hfollows'⟩ := hfirst hd₁ hposition hfollows₁
    exact ⟨.head hfirst' hrest', hfollows'⟩

/-- A link is read at the same place of another text. -/
theorem portable_link : Portable (Link P depth) := by
  intro s t h
  cases h with
  | @named c c' before access property haccess hcomputed hname =>
    obtain ⟨word, -, hword, -, rfl, helsewhere⟩ := Leaf.propertyName_beside hname
    have hc := (c.pastBlanks.skip access.text.length).passes_blanks.trans hword
    refine ⟨_, (passes_access haccess).trans hc, fun {d d'} hd hposition hfollows => ?_⟩
    obtain ⟨haccess', hfollows', hd', hposition'⟩ :=
      access_elsewhere haccess hc hd hposition hfollows.beside
    have hstand : Transfer.still.Stand (c.pastBlanks.skip access.text.length)
        (d.pastBlanks.skip access.text.length) := hposition'
    have hcovers : Covers Transfer.still.at? (c.pastBlanks.skip access.text.length).pastBlanks
        (Template.keep word) c' := .keep hword
    obtain ⟨hblanks, hd'⟩ := hcovers.enter hstand (passes_still_append hd') hfollows.beside
    rw [Template.new_keep] at hd'
    -- The span of the name is the same at both places, since they have the same position.
    have hfirst : (c.pastBlanks.skip access.text.length).pastBlanks.position =
        (d.pastBlanks.skip access.text.length).pastBlanks.position := hblanks.stand
    have hlast : c'.position = d'.position := by
      rw [hword.position_eq, hd'.position_eq, hfirst]
    rw [hfirst, hlast]
    exact ⟨.named haccess' hcomputed (helsewhere hd' hfollows.beside).2, hfollows'⟩
  | @computed c c' before access property haccess hcomputed hproperty hP hclose =>
    obtain ⟨inner, hinner⟩ := hproperty.reaches.exists_passes
    have hc := hinner.trans (passes_char hclose)
    refine ⟨_, (passes_access haccess).trans hc, fun {d d'} hd hposition hfollows => ?_⟩
    obtain ⟨haccess', hfollows', hd', hposition'⟩ :=
      access_elsewhere haccess hc hd hposition hfollows.beside
    obtain ⟨hd₁, hd₂⟩ := hd'.split
    generalize hd₀ : (d.pastBlanks.skip access.text.length).skip inner.length = d₁ at hd₁ hd₂
    have hposition₁ : c'.position = d₁.position := by
      rw [hinner.position_eq, hd₁.position_eq, hposition']
    obtain ⟨hclose', hend, hlast, hblanks⟩ :=
      @char_elsewhere c' d₁ d' [] ']' hclose (by rwa [List.append_nil]) hposition₁
    obtain rfl := hend.eq_of_nil
    have hproperty' := (hproperty.elsewhere hinner hd₁ hposition'
      (hblanks _ (follows_char _ hclose hclose' (by decide)))).1
    rw [hlast]
    exact ⟨.computed haccess' hcomputed hproperty' hP hclose', hfollows'⟩
  | @accessedCall c c' before access es haccess hcomputed hopen hes hP =>
    obtain ⟨inner, hinner⟩ := hes.reaches.exists_passes
    have hc := (passes_char hopen).trans hinner
    refine ⟨_, (passes_access haccess).trans hc, fun {d d'} hd hposition hfollows => ?_⟩
    obtain ⟨haccess', hfollows', hd', hposition'⟩ :=
      access_elsewhere haccess hc hd hposition hfollows.beside
    obtain ⟨hopen', hes', hlast, -⟩ :=
      arguments_elsewhere hopen hes hinner hd' hposition' hfollows
    rw [hlast]
    exact ⟨.accessedCall haccess' hcomputed hopen' hes' hP, hfollows'⟩
  | @call c c' before es hopen hes hP =>
    obtain ⟨inner, hinner⟩ := hes.reaches.exists_passes
    refine ⟨_, (passes_char hopen).trans hinner, fun {d d'} hd hposition hfollows => ?_⟩
    obtain ⟨hopen', hes', hlast, hfollows'⟩ :=
      arguments_elsewhere hopen hes hinner hd hposition hfollows
    rw [hlast]
    exact ⟨.call hopen' hes' hP, hfollows'⟩

/-! ## Operators -/

/-- An operand grows by an operator and a right operand: from the place before them, what is read up
to there and whether it is a bare unary operand, to the place behind them. The right operand has the
property. -/
inductive Join (P : Expr → Prop) (depth : Nat) :
    Cursor × Climbed × Bool → Cursor × Climbed × Bool → Prop
  | joined {c c' : Cursor} {left right : Climbed} {isBareUnary : Bool} {operator : InfixOperator} :
    Token.infixOperator? c.pastBlanks.rest = some operator →
    ¬(isBareUnary = true ∧ operator = .binary .exp) →
    Derives depth (.operands operator.rightPrecedence) (c.pastBlanks.skip operator.text.length)
      (some right) c' →
    P right.expr → operator.Allows left right →
    Join P depth (c, left, isBareUnary)
      (c', ⟨operator.join left.expr right.expr, operator.logical?⟩, false)

/-- An operand grows by any number of operators. -/
abbrev Joined (P : Expr → Prop) (depth : Nat) :
    Cursor × Climbed × Bool → Cursor × Climbed × Bool → Prop :=
  ReflTransGen (Join P depth)

variable {u w : Cursor × Climbed × Bool}

/-- Operands that are joined are read, where no operator follows. -/
theorem Joined.derives (h : Joined P depth u w)
    (hend : ∀ operator ∈ Token.infixOperator? w.1.pastBlanks.rest, operator.precedence < 1) :
    Derives depth (.infixes 1 u.2.1 u.2.2) u.1 w.2.1 w.1.pastBlanks := by
  induction h using ReflTransGen.head_induction_on with
  | refl => exact .noInfix hend
  | head hjoin _ ih =>
    cases hjoin with
    | joined hop hbare hright _ hallows =>
      exact .joined hop (InfixOperator.precedence_pos _) hbare hright hallows ih

/-- So is an operator with its right operand. -/
theorem portable_join : Portable (Join P depth) := by
  intro u w h
  cases h with
  | @joined c c' left right isBareUnary operator hop hbare hright hP hallows =>
    obtain ⟨rest, hrest⟩ := Token.infixOperator?_eq_some hop
    have hlength : operator.text.toList.length = operator.text.length := String.length_toList
    have htoken := Cursor.passes_skip hrest
    rw [hlength] at htoken
    have hne : operator.text.toList ≠ [] := by
      obtain ⟨y, ys, htext⟩ := Token.exists_cons_of_infixOperator operator
      rw [htext]
      exact List.cons_ne_nil y ys
    obtain ⟨piece, hpiece⟩ := hright.reaches.exists_passes
    refine ⟨_, (c.passes_blanks.trans htoken).trans hpiece, fun {d d'} hd hposition hfollows => ?_⟩
    have hstand : Transfer.still.Stand c d := hposition
    obtain ⟨hblanks, hrest', hd', hposition'⟩ :=
      Covers.enterToken hstand hrest hlength hne (passes_still_append hd)
    rw [Template.new_keep] at hd'
    have hright' := (hright.elsewhere hpiece hd' hposition' hfollows).1
    have hop' := infixOperator?_transferred hop hrest' (hpiece.beside hd' hfollows.beside) hright'
    exact ⟨.joined hop' hbare hright' hP hallows,
      hblanks.follows (follows_infixOperator hop hop')⟩

end Grammar

end Estree
