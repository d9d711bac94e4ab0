import Estree.Proofs.Grammar.Comparison
import Estree.Proofs.Transfer.Leaves

/-!
# Readings transferred to other texts

What has been read in one text is read in another one, if the same text stands there and what
follows it stops the reading as before (`Text.Follows`). In place of a word that was read as an
operand there may be a group (`Transfer.fills`). `Derives.transfers` is an induction on derivations:
each part of a text has a template of its own, and a part is read as before because the parts after
it are.

> `Transfer`: what becomes of offsets, and which group stands in for the word at a span. The trees
> that are read on both sides look the same, but for spans and for the word (`Transfer.comparable`).
> `Covers span? c m c'`: the template is the text between two cursors, and its words are at the
> span.
> `Transfers span? depth p c v c'`: some template covers what the production reads, and wherever its
> new text stands, with something behind it that stops the reading as before, the production reads
> there what looks the same.

The template is chosen before the transfer, so that it depends on the derivation only. A production
chains the templates of its parts (`Covers.append` and the lemmas for blanks, tokens and
characters), and enters the new text from the front: `Covers.enter`, `enterToken` and `enterChar`
pass what stands at the cursor on both sides, and leave the two cursors at corresponding places
(`Transfer.Stand`).

What follows a part is the beginning of the next one, in the new text. That it stops the part as
before is known from behind, so each lemma first looks at its last part and then at the ones before.
-/

namespace Estree

open Text View

/-- Whether a comma behind what the production reads would be taken for more of it. -/
def Production.takesComma : Production → Bool
  | .sequence false | .expressions _ | .argumentList | .elements => true
  | _ => false

namespace Grammar

/-! ## Transfers -/

/-- How a reading is transferred: what becomes of offsets, and which group stands in for the word at
a span. With a group, offsets are of no account, and some more levels are needed. -/
structure Transfer where
  offset : Nat → Nat
  offset_add : ∀ {p q : Nat} (n : Nat), offset p = offset q → offset (p + n) = offset (q + n)
  hole? : Option Expr.Hole
  text : List Char
  levels : Nat
  offset_eq : hole?.isSome = true → ∀ p q, offset p = offset q
  fills : ∀ hole ∈ hole?, ∀ (depth : Nat) {d d' : Cursor}, d.Passes ('(' :: (text ++ [')'])) d' →
    ∃ e : Expr, Derives (levels + depth) .primaryForm d (some e) d' ∧
      e.relocated offset = hole.filling.relocated offset

namespace Transfer

variable {x : Transfer} {c c' c₁ d d' d₁ : Cursor} {m m₁ m₂ : Template} {span? : Option Span}

/-- How a tree that was read looks. -/
def left (x : Transfer) : View := ⟨x.offset, x.hole?⟩

/-- How a tree that is read instead looks. -/
def right (x : Transfer) : View := ⟨x.offset, none⟩

/-- Where the word stands that the group stands in for. -/
def at? (x : Transfer) : Option Span := x.hole?.map (·.span)

/-- A transfer that replaces nothing. -/
def plain (offset : Nat → Nat)
    (offset_add : ∀ {p q : Nat} (n : Nat), offset p = offset q → offset (p + n) = offset (q + n))
    (text : List Char) (levels : Nat) : Transfer where
  offset := offset
  offset_add := offset_add
  hole? := none
  text := text
  levels := levels
  offset_eq h := by cases h
  fills _ h := by cases h

/-- The transfer, but that it replaces nothing. -/
def bare (x : Transfer) : Transfer :=
  plain x.offset x.offset_add x.text x.levels

/-- Before and after a transfer the same is asked of trees. -/
theorem comparable (x : Transfer) : Comparable x.left x.right where
  span_eq {e e'} h := by
    cases hhole : x.hole? with
    | none =>
      have htree : x.left.tree e = e.relocated x.offset := by
        rw [View.tree, left, hhole]
      have hsame : e.relocated x.offset = e'.relocated x.offset := htree.symm.trans h
      have hspan := congrArg Expr.span hsame
      rwa [Expr.span_relocated, Expr.span_relocated] at hspan
    | some hole =>
      have hoffset := x.offset_eq (by rw [hhole]; rfl)
      exact congrArg₂ Span.mk (hoffset _ _) (hoffset _ _)

/-- The cursors stand at corresponding places. -/
def Stand (x : Transfer) (c d : Cursor) : Prop :=
  x.offset c.position = x.offset d.position

/-- Cursors that pass a template come to corresponding places. -/
theorem Stand.passes (h : x.Stand c d) (hc : c.Passes m.old c')
    (hat : m.IsAt x.at? c.position) (hd : d.Passes (m.new x.text) d') : x.Stand c' d' := by
  cases hhole : x.hole? with
  | none =>
    rw [at?, hhole] at hat
    rw [hat.new_eq_old] at hd
    rw [Stand, hc.position_eq, hd.position_eq]
    exact x.offset_add _ h
  | some hole => exact x.offset_eq (by rw [hhole]; rfl) _ _

/-- So do cursors that pass the same piece. -/
theorem Stand.kept {piece : List Char} (h : x.Stand c d) (hc : c.Passes piece c')
    (hd : d.Passes piece d') : x.Stand c' d' := by
  rw [Stand, hc.position_eq, hd.position_eq]
  exact x.offset_add _ h

end Transfer

/-! ## The word that is replaced -/

/-- Whether the tree is the word at the span. -/
def IsHole (span? : Option Span) : Expr → Prop
  | .identifier span _ => span ∈ span?
  | _ => False

/-- The hole is at a tree exactly if this is the word to be replaced. -/
theorem Transfer.isAt_iff {x : Transfer} {hole : Expr.Hole} (hhole : hole ∈ x.hole?) (e : Expr) :
    hole.isAt e = true ↔ IsHole x.at? e := by
  cases e with
  | identifier span name =>
    show (span == hole.span) = true ↔ span ∈ x.hole?.map (·.span)
    rw [Option.mem_def.1 hhole, beq_iff_eq]
    exact ⟨fun h => h ▸ rfl, fun h => (Option.some.inj h).symm⟩
  | _ => exact ⟨nofun, nofun⟩

/-- At any other tree there is no hole. -/
theorem Transfer.not_isAt {x : Transfer} {e : Expr} (h : ¬IsHole x.at? e) :
    ∀ hole ∈ x.left.hole?, hole.isAt e = false :=
  fun _ hhole => Bool.eq_false_iff.2 fun hat => h ((isAt_iff hhole e).1 hat)

/-- In the new text nothing is left to be replaced. -/
theorem Transfer.right_not_isAt (x : Transfer) {e : Expr} :
    ∀ hole ∈ x.right.hole?, hole.isAt e = false := by
  rintro hole ⟨⟩

/-- At the word to be replaced there is a hole. -/
theorem Transfer.exists_isAt {x : Transfer} {e : Expr} (h : IsHole x.at? e) :
    ∃ hole ∈ x.left.hole?, hole.isAt e = true := by
  cases hhole : x.hole? with
  | none =>
    rw [at?, hhole] at h
    cases e with
    | identifier => cases h
    | _ => exact h.elim
  | some hole => exact ⟨hole, hhole, (isAt_iff hhole e).2 h⟩

/-- Where nothing is replaced, no tree is the word. -/
theorem not_isHole_none (e : Expr) : ¬IsHole none e := by
  cases e <;> exact nofun

/-- Trees that look the same are both places or neither of them, but for the word. -/
theorem Transfer.isPlace_eq {x : Transfer} {e e' : Expr} (h : x.left.Same x.right e e')
    (hhole : ¬IsHole x.at? e) : e'.isPlace = e.isPlace := by
  have htree : x.left.tree e = e'.relocated x.offset := h
  rw [← Expr.isPlace_relocated x.offset, ← htree, View.tree]
  split
  next => rw [Expr.isPlace_relocated]
  next hole heq => rw [Expr.isPlace_relocated, Expr.isPlace_filled (x.not_isAt hhole hole heq)]

/-- A tree that is not the word is a chain after the transfer if it was one before. -/
theorem Transfer.isChain_eq {x : Transfer} {e e' : Expr} (h : x.left.Same x.right e e')
    (hhole : ¬IsHole x.at? e) : e'.isChain = e.isChain := by
  have htree : x.left.tree e = e'.relocated x.offset := h
  rw [← Expr.isChain_relocated x.offset, ← htree, View.tree]
  split
  next => rw [Expr.isChain_relocated]
  next hole heq => rw [Expr.isChain_relocated, Expr.isChain_filled (x.not_isAt hhole hole heq)]

/-! ## Templates of what is read -/

/-- A template of the text between two cursors. -/
structure Covers (span? : Option Span) (c : Cursor) (m : Template) (c' : Cursor) : Prop where
  passes : c.Passes m.old c'
  isAt : m.IsAt span? c.position

namespace Covers

open Template

variable {x : Transfer} {c c' c₁ d d' d₁ : Cursor} {m m₁ m₂ : Template} {span? : Option Span}
  {piece rest : List Char} {y : Char} {n : Nat}

/-- Nothing is covered by the empty template. -/
theorem refl (span? : Option Span) (c : Cursor) : Covers span? c [] c :=
  ⟨.refl c, trivial⟩

/-- One template after another. -/
theorem append (h₁ : Covers span? c m₁ c₁) (h₂ : Covers span? c₁ m₂ c') :
    Covers span? c (m₁ ++ m₂) c' where
  passes := by
    rw [old_append]
    exact h₁.passes.trans h₂.passes
  isAt := isAt_append_iff.2 ⟨h₁.isAt, h₁.passes.position_eq ▸ h₂.isAt⟩

/-- What is passed may be kept. -/
theorem keep (h : c.Passes piece c') : Covers span? c (keep piece) c' where
  passes := h.of_eq (old_keep piece).symm
  isAt := isAt_keep ..

/-- Blanks before a template are kept. -/
theorem pastBlanks (h : Covers span? c.pastBlanks m c') :
    Covers span? c (Template.keep c.blanks ++ m) c' :=
  (keep c.passes_blanks).append h

/-- A piece at the cursor is kept. -/
theorem ofPiece (h : Covers span? (c.skip n) m c') (hrest : c.rest = piece ++ rest)
    (hn : piece.length = n) : Covers span? c (Template.keep piece ++ m) c' := by
  subst hn
  exact (keep (Cursor.passes_skip hrest)).append h

/-- With a token before it, and blanks before that. -/
theorem token (h : Covers span? (c.pastBlanks.skip n) m c')
    (hrest : c.pastBlanks.rest = piece ++ rest) (hn : piece.length = n) :
    Covers span? c (Template.keep (c.blanks ++ piece) ++ m) c' := by
  subst hn
  exact (keep (c.passes_blanks.trans (Cursor.passes_skip hrest))).append h

/-- The sign of an access is kept, and the blanks before it. -/
theorem access {access : Access} (h : Covers span? (c.pastBlanks.skip access.text.length) m c')
    (haccess : Token.access? c.pastBlanks.rest = some access) :
    Covers span? c (Template.keep (c.blanks ++ access.text.toList) ++ m) c' := by
  obtain ⟨rest, hrest⟩ := Token.access?_eq_some haccess
  exact h.token hrest String.length_toList

/-- So is one character. -/
theorem char (h : Covers span? (c.pastBlanks.skip 1) m c')
    (hhead : c.pastBlanks.rest.head? = some y) :
    Covers span? c (Template.keep (c.blanks ++ [y]) ++ m) c' :=
  h.token (Cursor.rest_eq_cons_skip hhead) rfl

/-- The first character of what is covered is the same in the new text, or a delimiter. -/
theorem beside (h : Covers span? c m c') {text : List Char} (hd : d.Passes (m.new text) d')
    (hbeside : Beside c'.rest d'.rest) : Beside c.rest d.rest := by
  rw [h.passes.rest_eq, hd.rest_eq]
  exact beside_append hbeside

/-! Now with another text, step by step. -/

/-- The cursor in the new text comes by the place where the first template ends. -/
theorem split (h : Covers x.at? c m₁ c₁) (hstand : x.Stand c d)
    (hd : d.Passes ((m₁ ++ m₂).new x.text) d') :
    ∃ d₁, d.Passes (m₁.new x.text) d₁ ∧ d₁.Passes (m₂.new x.text) d' ∧ x.Stand c₁ d₁ := by
  rw [new_append] at hd
  obtain ⟨hd₁, hd₂⟩ := hd.split
  exact ⟨_, hd₁, hd₂, hstand.passes h.passes h.isAt hd₁⟩

end Covers

/-- The same blanks have been passed. -/
structure Transfer.Blanks (x : Transfer) (c d : Cursor) : Prop where
  passes : d.Passes c.blanks d.pastBlanks
  stand : x.Stand c.pastBlanks d.pastBlanks

namespace Transfer.Blanks

variable {x : Transfer} {c d d₁ : Cursor}

/-- Both cursors pass the same blanks if what follows begins alike. -/
theorem of_passes (hstand : x.Stand c d) (hd : d.Passes c.blanks d₁)
    (hbeside : Beside c.pastBlanks.rest d₁.rest) : x.Blanks c d ∧ d₁ = d.pastBlanks := by
  obtain rfl := hd.eq_pastBlanks hbeside
  exact ⟨⟨hd, hstand.kept c.passes_blanks hd⟩, rfl⟩

/-- What stops a reading past blanks stops it before them. -/
theorem follows {takesComma : Bool} (h : x.Blanks c d)
    (hfollows : Follows takesComma c.pastBlanks.rest d.pastBlanks.rest) :
    Follows takesComma c.rest d.rest := by
  rw [c.passes_blanks.rest_eq, h.passes.rest_eq]
  exact hfollows.blanks c.isBlank_of_mem_blanks

/-- Where no blank stood, none stands now. -/
theorem pastBlanks_eq {y : Char} (h : x.Blanks c d) (hhead : c.rest.head? = some y)
    (hy : isBlank y = false) : d.pastBlanks = d := by
  have hnone : c.blanks = [] := by
    obtain ⟨ys, hys⟩ := List.head?_eq_some_iff.1 hhead
    rw [Cursor.blanks, hys, List.takeWhile_cons_of_neg (Bool.eq_false_iff.1 hy)]
  rw [h.passes.eq_skip, hnone]
  rfl

end Transfer.Blanks

namespace Covers

open Template

variable {x : Transfer} {c c' d d' : Cursor} {m : Template} {piece rest : List Char} {y : Char}
  {n : Nat}

/-- Past blanks, both cursors are where the template begins. -/
theorem enter (h : Covers x.at? c.pastBlanks m c') (hstand : x.Stand c d)
    (hd : d.Passes ((Template.keep c.blanks ++ m).new x.text) d')
    (hbeside : Beside c'.rest d'.rest) :
    x.Blanks c d ∧ d.pastBlanks.Passes (m.new x.text) d' := by
  rw [new_append, new_keep] at hd
  obtain ⟨hd₁, hd₂⟩ := hd.split
  obtain ⟨hblanks, heq⟩ := Transfer.Blanks.of_passes hstand hd₁ (h.beside hd₂ hbeside)
  exact ⟨hblanks, heq ▸ hd₂⟩

/-- Past a piece that is kept, too. -/
theorem enterPiece (hstand : x.Stand c d) (hrest : c.rest = piece ++ rest) (hn : piece.length = n)
    (hd : d.Passes ((Template.keep piece ++ m).new x.text) d') :
    d.rest = piece ++ (d.skip n).rest ∧ (d.skip n).Passes (m.new x.text) d' ∧
      x.Stand (c.skip n) (d.skip n) := by
  subst hn
  rw [new_append, new_keep] at hd
  obtain ⟨hd₁, hd₂⟩ := hd.split
  exact ⟨hd₁.rest_eq, hd₂, hstand.kept (Cursor.passes_skip hrest) hd₁⟩

/-- Past blanks and a token, too. -/
theorem enterToken (hstand : x.Stand c d)
    (hrest : c.pastBlanks.rest = piece ++ rest) (hn : piece.length = n) (hne : piece ≠ [])
    (hd : d.Passes ((Template.keep (c.blanks ++ piece) ++ m).new x.text) d') :
    x.Blanks c d ∧ d.pastBlanks.rest = piece ++ (d.pastBlanks.skip n).rest ∧
      (d.pastBlanks.skip n).Passes (m.new x.text) d' ∧
      x.Stand (c.pastBlanks.skip n) (d.pastBlanks.skip n) := by
  subst hn
  rw [new_append, new_keep, List.append_assoc] at hd
  obtain ⟨hd₁, hd₂⟩ := hd.split
  have hbeside : Beside c.pastBlanks.rest (d.skip c.blanks.length).rest :=
    (Cursor.passes_skip hrest).beside_of_ne_nil hd₂.split.1 hne
  obtain ⟨hblanks, heq⟩ := Transfer.Blanks.of_passes hstand hd₁ hbeside
  rw [heq] at hd₂
  obtain ⟨hd₃, hd₄⟩ := hd₂.split
  exact ⟨hblanks, hd₃.rest_eq, hd₄, hblanks.stand.kept (Cursor.passes_skip hrest) hd₃⟩

/-- Past blanks and one character, too. -/
theorem enterChar (hstand : x.Stand c d)
    (hhead : c.pastBlanks.rest.head? = some y)
    (hd : d.Passes ((Template.keep (c.blanks ++ [y]) ++ m).new x.text) d') :
    x.Blanks c d ∧ d.pastBlanks.rest.head? = some y ∧
      (d.pastBlanks.skip 1).Passes (m.new x.text) d' ∧
      x.Stand (c.pastBlanks.skip 1) (d.pastBlanks.skip 1) := by
  obtain ⟨hblanks, hrest, hd, hstand⟩ :=
    enterToken hstand (Cursor.rest_eq_cons_skip hhead) rfl (List.cons_ne_nil _ _) hd
  exact ⟨hblanks, by rw [hrest]; rfl, hd, hstand⟩

/-- The beginning of an access is found in the new text. -/
theorem enterAccess {access : Access} (h : Covers x.at? (c.pastBlanks.skip access.text.length) m c')
    (hstand : x.Stand c d) (haccess : Token.access? c.pastBlanks.rest = some access)
    (hd : d.Passes ((Template.keep (c.blanks ++ access.text.toList) ++ m).new x.text) d')
    (hbeside : Beside c'.rest d'.rest) :
    Token.access? d.pastBlanks.rest = some access ∧ Follows false c.rest d.rest ∧
      (d.pastBlanks.skip access.text.length).Passes (m.new x.text) d' ∧
      x.Stand (c.pastBlanks.skip access.text.length) (d.pastBlanks.skip access.text.length) := by
  obtain ⟨rest, hrest⟩ := Token.access?_eq_some haccess
  have hlength : access.text.toList.length = access.text.length := String.length_toList
  have hne : access.text.toList ≠ [] := by
    rcases access with ⟨_ | _, _ | _⟩ <;> exact List.cons_ne_nil _ _
  obtain ⟨hblanks, hrest', hd, hstand'⟩ := enterToken hstand hrest hlength hne hd
  obtain rfl : (c.pastBlanks.skip access.text.length).rest = rest := by
    rw [← hlength]
    exact Cursor.skip_length_rest hrest
  have hbeside' := h.beside hd hbeside
  refine ⟨?_, hblanks.follows ?_, hd, hstand'⟩
  · rw [hrest']
    exact Token.access?_beside (hrest ▸ haccess) hbeside'
  · rw [hrest, hrest']
    exact follows_access (hrest ▸ haccess) hbeside'

/-- Blanks that are passed at the end. -/
theorem leave {takesComma : Bool} (hm : Covers x.at? c m c')
    (hstand : x.Stand c d) (hd : d.Passes ((m ++ Template.keep c'.blanks).new x.text) d')
    (hfollows : Follows takesComma c'.pastBlanks.rest d'.rest) :
    ∃ d₁, d.Passes (m.new x.text) d₁ ∧ x.Blanks c' d₁ ∧ d' = d₁.pastBlanks ∧
      Follows takesComma c'.rest d₁.rest := by
  obtain ⟨d₁, hd₁, hd, hstand₁⟩ := hm.split hstand hd
  rw [new_keep] at hd
  obtain ⟨hblanks, rfl⟩ := Transfer.Blanks.of_passes hstand₁ hd hfollows.beside
  exact ⟨d₁, hd₁, hblanks, rfl, hblanks.follows hfollows⟩

end Covers

/-! ## Productions that are transferred -/

/-- What is known of the new text where a production begins: before a loop goes on there is nothing
that did not stand there, an operand is a bare unary one if it was, and a group begins as it did. -/
def Enters : Production → Cursor → Cursor → Prop
  | .infixes .., c, d | .links _, c, d | .calleeLinks _, c, d => Follows false c.rest d.rest
  | .unary, c, d | .unaryForm, c, d =>
    (Token.unaryOperator? d.pastBlanks.rest).isSome =
      (Token.unaryOperator? c.pastBlanks.rest).isSome
  | .token, c, d =>
    Token.unaryOperator? c.pastBlanks.rest = none → Token.unaryOperator? d.pastBlanks.rest = none
  | .primary, c, d | .primaryForm, c, d =>
    Token.unaryOperator? c.rest = none → Token.unaryOperator? d.rest = none
  | .sequence true, c, d => c.rest.head? = some '(' → d.rest.head? = some '('
  | _, _, _ => True

/-- What a production reads is read in the new text as well. -/
structure Moves (x : Transfer) (m : Template) (depth : Nat) (p : Production) (c : Cursor)
    (v : p.Yield) (c' : Cursor) : Prop where
  enters : ∀ {d d' : Cursor}, d.Passes (m.new x.text) d' → x.Stand c d →
    Follows p.takesComma c'.rest d'.rest → Enters p c d
  derives : ∀ {d d' : Cursor} {q : Production} {values : p.Yield → q.Yield → Prop},
    d.Passes (m.new x.text) d' → x.Stand c d → Follows p.takesComma c'.rest d'.rest →
    Production.Like x.left x.right p q values →
    ∃ w, Derives (x.levels + depth) q d w d' ∧ values v w

/-- There is a template of what a production reads, for all transfers that replace the word at a
span. -/
def Transfers (span? : Option Span) (depth : Nat) (p : Production) (c : Cursor) (v : p.Yield)
    (c' : Cursor) : Prop :=
  ∃ m, Covers span? c m c' ∧ ∀ x : Transfer, x.at? = span? → Moves x m depth p c v c'

/-- What looks like itself though a word is replaced may be transferred without replacing it. -/
theorem transfers_of_none {span? : Option Span} {depth : Nat} {p : Production} {c c' : Cursor}
    {v : p.Yield} (h : Transfers none depth p c v c')
    (hlike : ∀ x : Transfer, x.at? = span? → ∀ {q : Production}
      {values : p.Yield → q.Yield → Prop}, Production.Like x.left x.right p q values →
      ∃ values' : p.Yield → q.Yield → Prop,
        Production.Like x.bare.left x.bare.right p q values' ∧ ∀ w, values' v w → values v w) :
    Transfers span? depth p c v c' := by
  obtain ⟨m, hm, h⟩ := h
  refine ⟨m, ⟨hm.passes, hm.isAt.of_none⟩, fun x hx => ?_⟩
  have hmoves : Moves x.bare m depth p c v c' := h x.bare rfl
  refine ⟨hmoves.enters, fun hd hstand hfollows hvalues => ?_⟩
  obtain ⟨values', hvalues', hsub⟩ := hlike x hx hvalues
  obtain ⟨w, hw, hsame⟩ := hmoves.derives hd hstand hfollows hvalues'
  exact ⟨w, hw, hsub w hsame⟩

end Grammar

end Estree
