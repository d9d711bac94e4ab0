import Estree.Proofs.Source.Links
import Estree.Proofs.Source.Runs
import Estree.Proofs.Transfer.InPlace

/-!
# Links

A member access or a call as a text of its own, put together from names and accepted texts, and the
node that it makes of the tree before it (`RunLink.text`, `RunLink.node`). Blanks may stand wherever
they are allowed (`Gap`), and what stands between brackets is any text that is accepted on its own.

> `RunsTo.link`: whatever stands before a link and behind it, a run that has come to the link goes
> on past it with that node.

An accepted text is known to be read from the start of a text that ends with it, and here it is read
in the middle of another one. That it is read there alike, moved to where it stands, is what the
comparison of readings says (`reads_arguments`, `Member.accessStep`). The levels are no matter: a
link is read with as many as its bytes account for (`levels_passes`).

A link must not be taken for the end of what is before it, nor for a part of it: it begins with no
character of a name (`RunLink.head?_text`).
-/

namespace Estree

open Text Grammar

/-! ## Texts -/

/-- Blanks that stand between two tokens. -/
structure Gap where
  text : List Char
  blank : ∀ x ∈ text, isBlank x = true

/-- What a member access leads to: a name, or what is read between brackets. -/
inductive Key where
  | named (name : String) (isName : IsName name)
  | computed (property : Accepted)

/-- A member access, and the blanks before it. -/
structure Member where
  gap : Gap
  optional : Bool
  key : Key

/-- A call, and the blanks before it. -/
structure Call where
  gap : Gap
  optional : Bool
  arguments : List Argument

/-- A member access or a call. -/
inductive RunLink where
  | member (link : Member)
  | call (link : Call)

namespace Argument

/-- The texts with commas between them. -/
def joined : List Argument → List Char
  | [] => []
  | [last] => last.source.toList
  | argument :: others => argument.source.toList ++ ',' :: joined others

/-- The trees of such texts, of which the first one begins at an offset. -/
def trees (offset : Nat) : List Argument → List Expr
  | [] => []
  | argument :: others =>
    argument.tree.movedBy offset :: trees (offset + utf8Size argument.source.toList + 1) others

end Argument

namespace Key

def isComputed : Key → Bool
  | named .. => false
  | computed _ => true

/-- What comes after `.`, `?.`, `[` or `?.[`. -/
def text : Key → List Char
  | named name _ => name.toList
  | computed property => property.source.toList ++ [']']

/-- The tree of a key that begins at an offset. -/
def tree (offset : Nat) : Key → Expr
  | named name _ => .identifier ⟨offset, offset + utf8Size name.toList⟩ name
  | computed property => property.tree.movedBy offset

end Key

namespace Member

def access (link : Member) : Access := ⟨link.optional, link.key.isComputed⟩

def opening (link : Member) : List Char := link.gap.text ++ link.access.text.toList

def text (link : Member) : List Char := link.opening ++ link.key.text

/-- The node that an access which begins at an offset makes of what is before it. -/
def node (link : Member) (offset : Nat) (object : Expr) : Expr :=
  .member ⟨object.span.start, offset + utf8Size link.text⟩ object
    (link.key.tree (offset + utf8Size link.opening)) link.key.isComputed link.optional

end Member

namespace Call

/-- Up to the parenthesis that opens. -/
def opening (link : Call) : List Char :=
  link.gap.text ++ (if link.optional then ['?', '.', '('] else ['('])

def text (link : Call) : List Char :=
  link.opening ++ (Argument.joined link.arguments ++ [')'])

/-- The node that a call which begins at an offset makes of what is before it. -/
def node (link : Call) (offset : Nat) (callee : Expr) : Expr :=
  .call ⟨callee.span.start, offset + utf8Size link.text⟩ callee
    (Argument.trees (offset + utf8Size link.opening) link.arguments) link.optional

end Call

namespace RunLink

def optional : RunLink → Bool
  | member link => link.optional
  | call link => link.optional

def isCall : RunLink → Bool
  | member _ => false
  | call _ => true

def text : RunLink → List Char
  | member link => link.text
  | call link => link.text

/-- The node that a link which begins at an offset makes of what is before it. -/
def node (link : RunLink) (offset : Nat) (before : Expr) : Expr :=
  match link with
  | member link => link.node offset before
  | call link => link.node offset before

end RunLink

/-! ## Keys and arguments where they stand -/

section Reading

variable {depth : Nat} {c c' d d' : Cursor} {run : Links} {hasCall : Bool}

/-- Behind a piece of the text, no more is left than before it. -/
theorem levels_passes {piece : List Char} (h : d.Passes piece d')
    (hdepth : 4 * d.rest.length + 4 ≤ depth) : 4 * d'.rest.length + 4 ≤ depth := by
  have hlength := h.reaches.length_le
  omega

/-- Behind a gap there is what follows it. -/
theorem Gap.passes_pastBlanks (gap : Gap) {x : Char} {piece : List Char}
    (h : d.Passes (gap.text ++ x :: piece) d') (hx : isBlank x = false) :
    d.Passes gap.text d.pastBlanks ∧ d.pastBlanks.Passes (x :: piece) d' := by
  obtain ⟨hgap, hpiece⟩ := h.split
  have hpast : d.pastBlanks = d.skip gap.text.length :=
    pastBlanks_of_passes hgap gap.blank (by simp [hpiece.head?_rest, hx])
  exact hpast ▸ ⟨hgap, hpiece⟩

/-- Arguments are read one after the other. -/
theorem reads_argumentList {arguments : List Argument}
    (hd : d.Passes (Argument.joined arguments) d') (hclose : d'.rest.head? = some ')')
    (hdepth : 4 * d.rest.length + 4 ≤ depth) :
    Derives depth .argumentList d (Argument.trees d.position arguments) d' := by
  have hnoComma : d'.rest.head? ≠ some ',' := by
    rw [hclose]
    exact nofun
  induction arguments generalizing d with
  | nil =>
    obtain rfl := hd.eq_of_nil
    obtain ⟨rest, hrest⟩ := List.head?_eq_some_iff.1 hclose
    have hpast : d'.pastBlanks = d' := Cursor.pastBlanks_of_cons hrest (by decide)
    have hnone := Source.derives_noExpression (c := d') (by simp [hpast, hrest])
      (show 4 ≤ depth by omega)
    have hlist := Derives.lastArgument hnone (by rwa [hpast, hpast])
    rwa [hpast, hpast] at hlist
  | cons argument others ih =>
    cases others with
    | nil =>
      obtain ⟨d₁, hderives, hd₁⟩ := argument.reads_expression hd (by simp [hclose, closers]) hdepth
      exact hd₁ ▸ .lastArgument hderives (hd₁ ▸ hnoComma)
    | cons second others =>
      -- Behind the first one there is a comma, and behind the comma there are the other ones.
      obtain ⟨hfirst, hothers⟩ := hd.split
      obtain ⟨hcomma, hothers⟩ := hothers.split_cons
      have hhead := hcomma.head?_rest
      obtain ⟨d₁, hderives, hd₁⟩ :=
        argument.reads_expression hfirst (by simp [hhead, closers]) hdepth
      have hlist := ih hothers (levels_passes (hfirst.trans hcomma) hdepth)
      rw [hcomma.position_eq, hfirst.position_eq] at hlist
      exact .moreArguments hderives (hd₁ ▸ hhead) (hd₁ ▸ hlist)

/-- Arguments are read up to the parenthesis that closes them. -/
theorem reads_arguments {arguments : List Argument}
    (hd : d.Passes (Argument.joined arguments ++ [')']) d')
    (hdepth : 4 * d.rest.length + 4 ≤ depth) :
    Derives depth .arguments d (Argument.trees d.position arguments) d' := by
  obtain ⟨hlist, hclose⟩ := hd.split
  have hhead := hclose.head?_rest
  rw [hclose.eq_skip]
  exact .arguments (reads_argumentList hlist hhead hdepth) hhead

/-! ## Links -/

/-- An access begins with a symbol. -/
theorem Access.exists_cons_text (access : Access) : ∃ x xs, access.text.toList = x :: xs ∧
    isBlank x = false ∧ isIdentifierPart x = false := by
  rcases access with ⟨_ | _, _ | _⟩ <;>
    exact ⟨_, _, rfl, rfl, isIdentifierPart_of_mem_symbols (by decide)⟩

/-- What begins a member access is found there. -/
theorem Member.access?_eq_some (link : Member) (rest : List Char) :
    Token.access? (link.access.text.toList ++ (link.key.text ++ rest)) = some link.access := by
  obtain ⟨gap, optional, key⟩ := link
  cases key with
  | named name isName => exact Token.access?_text fun _ => Source.isName_head isName
  | computed property => exact Token.access?_text nofun

/-- Where a member access stands, it is found and read as one step. -/
theorem Member.accessStep (link : Member) (hc : c.Passes link.text c')
    (hrest : ∀ x ∈ c'.rest.head?, isIdentifierPart x = false)
    (hdepth : 4 * c.rest.length + 4 ≤ depth) :
    Token.access? c.pastBlanks.rest = some link.access ∧
      AccessStep depth run link.access (c.pastBlanks.skip link.access.text.length)
        ⟨link.node c.position run.node, run.hasOptional || link.optional⟩ c' := by
  obtain ⟨hopening, hkey⟩ := hc.split
  obtain ⟨x, xs, htext, hblank, -⟩ := link.access.exists_cons_text
  obtain ⟨-, haccess⟩ :=
    link.gap.passes_pastBlanks (hopening.of_eq (congrArg (link.gap.text ++ ·) htext)) hblank
  have haccess := haccess.of_eq htext.symm
  generalize c.skip link.opening.length = d at hopening hkey haccess
  have hdepth' := levels_passes hopening hdepth
  refine ⟨?_, ?_⟩
  · rw [haccess.rest_eq, hkey.rest_eq]
    exact link.access?_eq_some c'.rest
  -- The node ends where the key does, or where the bracket behind it has been passed.
  rw [← String.length_toList, ← haccess.eq_skip, Member.node, ← hopening.position_eq,
    ← hc.position_eq]
  obtain ⟨gap, optional, key⟩ := link
  cases key with
  | named name isName =>
    obtain ⟨hpast, hparen, hproperty⟩ :=
      Source.propertyName_of_isName isName hkey hrest
    have hstep : AccessStep depth run ⟨optional, false⟩ d _ c' :=
      accessStep_named rfl (hpast.symm ▸ hparen) (hpast.symm ▸ hproperty)
    rw [hpast] at hstep
    rw [hkey.position_eq]
    exact hstep
  | computed property =>
    obtain ⟨hproperty, hclose⟩ := @Cursor.Passes.split d c' _ [']'] hkey
    generalize d.skip property.source.toList.length = d₁ at hproperty hclose
    have hpast : d₁.pastBlanks = d₁ := Cursor.pastBlanks_of_cons hclose.rest_eq (by decide)
    have hhead : d₁.rest.head? = some ']' := hclose.head?_rest
    have hderives := property.reads_sequence hproperty (by simp [hhead, closers]) hdepth'
    have hstep : AccessStep depth run ⟨optional, true⟩ d _ (d₁.pastBlanks.skip 1) :=
      accessStep_computed rfl hderives (hpast.symm ▸ hhead)
    rw [hpast, show d₁.skip 1 = c' from hclose.eq_skip.symm] at hstep
    exact hstep

/-- Where a call without `?.` stands, its parenthesis is found and its arguments are read. -/
theorem Call.derives (link : Call) (hoptional : link.optional = false)
    (hd : d.Passes link.text d') (hdepth : 4 * d.rest.length + 4 ≤ depth) :
    Token.access? d.pastBlanks.rest = none ∧ d.pastBlanks.rest.head? = some '(' ∧
      Derives depth .arguments (d.pastBlanks.skip 1)
        (Argument.trees (d.position + utf8Size link.opening) link.arguments) d' := by
  obtain ⟨hopening, harguments⟩ := hd.split
  have hes := reads_arguments harguments (levels_passes hopening hdepth)
  rw [hopening.position_eq] at hes
  obtain ⟨gap, optional, arguments⟩ := link
  obtain rfl : optional = false := hoptional
  obtain ⟨-, hparen⟩ := gap.passes_pastBlanks
    (show d.Passes (gap.text ++ ['(']) _ from hopening) (by decide)
  have hhead : d.pastBlanks.rest.head? = some '(' := hparen.head?_rest
  rw [hparen.eq_skip] at hes
  exact ⟨access?_openParen hhead, hhead, hes⟩

/-- Where a call with `?.` stands, this is found first, and the parenthesis in the place of a
name. -/
theorem Call.accessStep (link : Call) (hoptional : link.optional = true)
    (hd : d.Passes link.text d') (hdepth : 4 * d.rest.length + 4 ≤ depth) :
    Token.access? d.pastBlanks.rest = some ⟨true, false⟩ ∧
      AccessStep depth run ⟨true, false⟩
        (d.pastBlanks.skip (⟨true, false⟩ : Access).text.length)
        ⟨link.node d.position run.node, run.hasOptional || true⟩ d' := by
  obtain ⟨hopening, harguments⟩ := hd.split
  have hes := reads_arguments harguments (levels_passes hopening hdepth)
  rw [hopening.position_eq] at hes
  rw [Call.node, ← hd.position_eq]
  obtain ⟨gap, optional, arguments⟩ := link
  obtain rfl : optional = true := hoptional
  obtain ⟨-, haccess⟩ := gap.passes_pastBlanks
    (show d.Passes (gap.text ++ ['?', '.', '(']) _ from hopening) (by decide)
  change d.pastBlanks.Passes ((⟨true, false⟩ : Access).text.toList ++ ['(']) _ at haccess
  obtain ⟨haccess, hparen⟩ := haccess.split
  rw [String.length_toList] at haccess hparen
  have hpast := Cursor.pastBlanks_of_cons hparen.rest_eq (by decide)
  have hhead := hparen.head?_rest
  rw [hparen.eq_skip] at hes
  rw [← hpast] at hhead hes
  have hstep : AccessStep depth run ⟨true, false⟩ _ _ d' := accessStep_call rfl hhead hes
  rw [callLinks, Bool.or_assoc] at hstep
  refine ⟨?_, hstep⟩
  rw [haccess.rest_eq, hparen.rest_eq]
  rfl

/-- A run goes on past a link. -/
theorem Grammar.RunsTo.link (h : RunsTo depth c run hasCall d) (link : RunLink)
    (hd : d.Passes link.text d') (hrest : ∀ x ∈ d'.rest.head?, isIdentifierPart x = false)
    (hdepth : 4 * d.rest.length + 4 ≤ depth) :
    RunsTo depth c ⟨link.node d.position run.node, run.hasOptional || link.optional⟩
      (hasCall || link.isCall) d' := by
  cases link with
  | member link =>
    obtain ⟨haccess, hstep⟩ := link.accessStep hd hrest hdepth
    rw [RunLink.isCall, Bool.or_false]
    exact h.accessed haccess hstep
  | call link =>
    rw [RunLink.isCall, Bool.or_true]
    cases hoptional : link.optional with
    | false =>
      obtain ⟨haccess, hparen, hes⟩ := link.derives hoptional hd hdepth
      have hrun := h.called haccess hparen hes
      rw [hd.position_eq] at hrun
      rw [RunLink.node, Call.node, RunLink.optional, hoptional]
      exact hrun
    | true =>
      obtain ⟨haccess, hstep⟩ := link.accessStep hoptional hd hdepth
      rw [RunLink.optional, hoptional]
      exact (h.accessed haccess hstep).withCall

/-- No word goes on with a link: it begins with a blank of its gap, or with a symbol. -/
theorem RunLink.head?_text (link : RunLink) (rest : List Char) :
    ∀ x ∈ (link.text ++ rest).head?, isIdentifierPart x = false := by
  have hgap : ∀ (gap : Gap) (x : Char) (xs : List Char), isIdentifierPart x = false →
      ∀ y ∈ (gap.text ++ x :: xs).head?, isIdentifierPart y = false := by
    intro gap x xs hx y hy
    cases hgap : gap.text with
    | nil =>
      rw [hgap] at hy
      exact Option.some.inj hy ▸ hx
    | cons z zs =>
      rw [hgap] at hy
      obtain rfl := Option.some.inj hy
      exact isIdentifierPart_of_isBlank (gap.blank z (hgap ▸ List.mem_cons_self ..))
  cases link with
  | member link =>
    obtain ⟨x, xs, htext, -, hx⟩ := link.access.exists_cons_text
    rw [text, Member.text, Member.opening, htext, List.append_assoc, List.append_assoc]
    exact hgap link.gap x _ hx
  | call link =>
    rw [text, Call.text, Call.opening, List.append_assoc, List.append_assoc]
    split
    next => exact hgap link.gap '?' _ (isIdentifierPart_of_mem_symbols (by decide))
    next => exact hgap link.gap '(' _ (isIdentifierPart_of_mem_symbols (by decide))

end Reading

end Estree
