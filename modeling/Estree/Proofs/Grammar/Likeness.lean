import Estree.Grammar.Reader
import Estree.Proofs.Grammar.Comparison
import Estree.Proofs.Grammar.Lookahead

/-!
# Readings that keep step

`step_alike`: two readings that stand at places where the same can be seen up to the next blank, and
that pass blanks alike, go on alike: they yield values that look the same, or end in the same fault,
and stand at such places again. A `Likeness` says which places are such, and how the offsets of the
one reading compare with those of the other. The states may hold more than a cursor, as long as the
grammar does not touch it; of that less may be known after a fault than before it.

It is one theorem for several comparisons that have nothing else in common:

> a text with other blanks, a text that stands further on in another one or has blanks behind it, a
> parser that counts its open levels beside a reading that is told the levels left, and a reading
> that notes where numbers begin beside one that does not.

Each of them only has to give the places that keep step and show that three things are preserved:
the characters up to the next blank, passing some of these, and passing blanks, with line ends or
without. That this is enough is due to the grammar, which never looks past a blank
(`Pattern.IsSolid`).

The proof follows the scans. Every step that a scan is made of has a lemma (`results_…`) that hands
the comparison on to what comes after it, so a production is compared by going through its steps,
and the whole grammar by going through its productions.
-/

namespace Estree

/-- Two readings that keep step: the places where they stand, what else there is in their states, as
long as they go on and when they have ended in a fault, and how the offsets of each of them are
looked at before they are compared. -/
structure Likeness (σ τ : Type) [HasCursor σ] [HasCursor τ] where
  left : Nat → Nat
  right : Nat → Nat
  cursors : Cursor → Cursor → Prop
  beside : σ → τ → Prop
  beside_moveTo : ∀ {s : σ} {t : τ} (c d : Cursor), beside s t →
    beside (HasCursor.moveTo s c) (HasCursor.moveTo t d)
  ended : Fault → σ → τ → Prop := fun _ => beside
  ended_of_beside : ∀ {s : σ} {t : τ} (fault : Fault), beside s t → ended fault s t := by
    exact fun _ h => h
  position_eq : ∀ {c d : Cursor}, cursors c d → left c.position = right d.position
  add_eq : ∀ {a b : Nat} (n : Nat), left a = right b → left (a + n) = right (b + n)
  solid_eq : ∀ {c d : Cursor}, cursors c d → Text.solid c.rest = Text.solid d.rest
  skip : ∀ {c d : Cursor} {n : Nat}, cursors c d → n ≤ (Text.solid c.rest).length →
    cursors (c.skip n) (d.skip n)
  skipBlanks : ∀ {c d : Cursor} (lineEnds : Bool), cursors c d →
    cursors (c.skipBlanks lineEnds) (d.skipBlanks lineEnds)

namespace Likeness

open HasCursor Scan

variable {σ τ : Type} [HasCursor σ] [HasCursor τ] {x : Likeness σ τ} {s : σ} {t : τ} {c d : Cursor}

/-- The states of two readings that keep step. -/
structure States (x : Likeness σ τ) (s : σ) (t : τ) : Prop where
  cursors : x.cursors (cursor s) (cursor t)
  beside : x.beside s t

/-- The values of two readings look the same. -/
def Values (x : Likeness σ τ) {α : Type} [Viewed α] (v w : α) : Prop :=
  View.Same ⟨x.left, none⟩ ⟨x.right, none⟩ v w

/-- The outcomes of two readings that keep step. -/
def Results (x : Likeness σ τ) {α β : Type} (values : α → β → Prop) :
    EStateM.Result Fault σ α → EStateM.Result Fault τ β → Prop
  | .ok v s, .ok w t => values v w ∧ x.States s t
  | .error fault s, .error fault' t =>
    fault.cause = fault'.cause ∧ x.left fault.offset = x.right fault'.offset ∧
      x.cursors (cursor s) (cursor t) ∧ x.ended fault s t
  | _, _ => False

/-- Trees are compared by their spans only. -/
theorem comparable (x : Likeness σ τ) : View.Comparable ⟨x.left, none⟩ ⟨x.right, none⟩ where
  span_eq {e e'} h := by
    have htree : e.relocated x.left = e'.relocated x.right := h
    have hspan := congrArg Expr.span htree
    rwa [Expr.span_relocated, Expr.span_relocated] at hspan

/-- Trees that look the same may both be updated, or neither. -/
theorem Values.isPlace_eq {e e' : Expr} (h : x.Values e e') : e.isPlace = e'.isPlace := by
  have htree : e.relocated x.left = e'.relocated x.right := h
  rw [← Expr.isPlace_relocated x.left, htree, Expr.isPlace_relocated]

/-- Trees that look the same are both chains, or neither is. -/
theorem Values.isChain_eq {e e' : Expr} (h : x.Values e e') : e.isChain = e'.isChain := by
  have htree : e.relocated x.left = e'.relocated x.right := h
  rw [← Expr.isChain_relocated x.left, htree, Expr.isChain_relocated]

/-! ## Steps of scans -/

/-- Both states may be moved to places that keep step. -/
theorem States.moveTo (h : x.States s t) (hcursors : x.cursors c d) :
    x.States (HasCursor.moveTo s c) (HasCursor.moveTo t d) where
  cursors := by rwa [cursor_moveTo, cursor_moveTo]
  beside := x.beside_moveTo c d h.beside

section Steps

variable {α α' β β' : Type} {V : α → α' → Prop} {W : β → β' → Prop}

/-- Readings that keep step both yield values that compare, or both end in the same fault. -/
theorem Results.ok_or_error {r : EStateM.Result Fault σ α} {r' : EStateM.Result Fault τ α'}
    (h : x.Results V r r') :
    (∃ v w s t, r = .ok v s ∧ r' = .ok w t ∧ V v w ∧ x.States s t) ∨
      ∃ fault fault' s t, r = .error fault s ∧ r' = .error fault' t ∧
        fault.cause = fault'.cause ∧ x.left fault.offset = x.right fault'.offset ∧
          x.cursors (cursor s) (cursor t) ∧ x.ended fault s t := by
  cases r with
  | ok v s =>
    cases r' with
    | ok w t => exact .inl ⟨v, w, s, t, rfl, rfl, h⟩
    | error fault' t => exact h.elim
  | error fault s =>
    cases r' with
    | ok w t => exact h.elim
    | error fault' t => exact .inr ⟨fault, fault', s, t, rfl, rfl, h⟩

/-- Scans in two parts keep step if the first parts do, and the second ones where those end. -/
theorem Results.bind {m : ScanOf σ α} {m' : ScanOf τ α'} {f : α → ScanOf σ β}
    {f' : α' → ScanOf τ β'}
    (h : x.Results V (m s) (m' t))
    (hf : ∀ v w s t, V v w → x.States s t → x.Results W (f v s) (f' w t)) :
    x.Results W ((m >>= f) s) ((m' >>= f') t) := by
  show x.Results W (EStateM.bind m f s) (EStateM.bind m' f' t)
  rw [EStateM.bind, EStateM.bind]
  obtain ⟨v, w, s₁, t₁, hm, hm', hvw, hstates⟩ | ⟨fault, fault', s₁, t₁, hm, hm', hended⟩ :=
    h.ok_or_error
  · rw [hm, hm']
    exact hf v w s₁ t₁ hvw hstates
  · rw [hm, hm']
    exact hended

/-- Values that look the same are yielded on the spot. -/
theorem results_pure {v : β} {w : β'} (hvw : W v w) (h : x.States s t) :
    x.Results W ((pure v : ScanOf σ β) s) ((pure w : ScanOf τ β') t) :=
  ⟨hvw, h⟩

/-- The same fault ends both, at offsets that compare. -/
theorem results_failAt {a b : Nat} {cause : Cause} (hab : x.left a = x.right b)
    (h : x.States s t) : x.Results W ((Scan.failAt a cause : ScanOf σ β) s)
      ((Scan.failAt b cause : ScanOf τ β') t) :=
  ⟨rfl, hab, h.cursors, x.ended_of_beside _ h.beside⟩

/-- The same fault ends both where they stand. -/
theorem results_fail {cause : Cause} (h : x.States s t) :
    x.Results W ((Scan.fail cause : ScanOf σ β) s) ((Scan.fail cause : ScanOf τ β') t) :=
  results_failAt (x.position_eq h.cursors) h

/-- A fault ends both readings, whatever they would have gone on with. -/
theorem results_failAt_bind {a b : Nat} {cause : Cause} {f : α → ScanOf σ β}
    {f' : α' → ScanOf τ β'} (hab : x.left a = x.right b) (h : x.States s t) :
    x.Results W ((Scan.failAt a cause >>= f) s) ((Scan.failAt b cause >>= f') t) :=
  ⟨rfl, hab, h.cursors, x.ended_of_beside _ h.beside⟩

/-- Nothing goes on after such a fault. -/
theorem results_fail_bind {cause : Cause} {f : α → ScanOf σ β} {f' : α' → ScanOf τ β'}
    (h : x.States s t) :
    x.Results W ((Scan.fail cause >>= f) s) ((Scan.fail cause >>= f') t) :=
  ⟨rfl, x.position_eq h.cursors, h.cursors, x.ended_of_beside _ h.beside⟩

/-- What is required is there for both, or for neither. -/
theorem results_require {what : Expected} {v? w? : Option α} [Viewed α] {f : α → ScanOf σ β}
    {f' : α → ScanOf τ β'} (h : x.States s t) (hvw : x.Values v? w?)
    (hf : ∀ v w, x.Values v w → x.Results W (f v s) (f' w t)) :
    x.Results W ((Scan.require v? what >>= f) s) ((Scan.require w? what >>= f') t) := by
  rcases hvw.eq_none_or with ⟨rfl, rfl⟩ | ⟨v, w, rfl, rfl, hsame⟩
  · exact results_fail_bind h
  · exact hf v w hsame

/-- A scan is told where it stands. -/
theorem here_bind {ρ : Type} [HasCursor ρ] {r : ρ} {f : Cursor → ScanOf ρ β} :
    (Scan.here >>= f) r = f (cursor r) r := rfl

/-- Both are told where they stand. -/
theorem results_here {f : Cursor → ScanOf σ β} {f' : Cursor → ScanOf τ β'}
    (hf : x.Results W (f (cursor s) s) (f' (cursor t) t)) :
    x.Results W ((Scan.here >>= f) s) ((Scan.here >>= f') t) := hf

/-- Both move to places that keep step. -/
theorem results_moveTo {f : Unit → ScanOf σ β} {f' : Unit → ScanOf τ β'} (h : x.States s t)
    (hcursors : x.cursors c d)
    (hf : ∀ s t, x.States s t → x.Results W (f () s) (f' () t)) :
    x.Results W ((Scan.moveTo c >>= f) s) ((Scan.moveTo d >>= f') t) :=
  hf _ _ (h.moveTo hcursors)

/-- Both keep the offsets at which they stand. -/
theorem results_position {f : Nat → ScanOf σ β} {f' : Nat → ScanOf τ β'} (h : x.States s t)
    (hf : ∀ a b, x.left a = x.right b → x.Results W (f a s) (f' b t)) :
    x.Results W ((Scan.position >>= f) s) ((Scan.position >>= f') t) :=
  hf _ _ (x.position_eq h.cursors)

/-- Both look at what is left. -/
theorem results_ahead {f : List Char → ScanOf σ β} {f' : List Char → ScanOf τ β'}
    (hf : x.Results W (f (cursor s).rest s) (f' (cursor t).rest t)) :
    x.Results W ((Scan.ahead >>= f) s) ((Scan.ahead >>= f') t) := hf

/-- Both skip as many characters, none of them a blank. -/
theorem results_skip {n : Nat} {f : Unit → ScanOf σ β} {f' : Unit → ScanOf τ β'}
    (h : x.States s t) (hn : n ≤ (Text.solid (cursor s).rest).length)
    (hf : ∀ s t, x.States s t → x.Results W (f () s) (f' () t)) :
    x.Results W ((Scan.skip n >>= f) s) ((Scan.skip n >>= f') t) :=
  hf _ _ (h.moveTo (x.skip h.cursors hn))

/-- Both pass blanks. -/
theorem results_skipBlanks {f : Unit → ScanOf σ β} {f' : Unit → ScanOf τ β'} (h : x.States s t)
    (hf : ∀ s t, x.States s t → x.Results W (f () s) (f' () t)) :
    x.Results W ((Scan.skipBlanks >>= f) s) ((Scan.skipBlanks >>= f') t) :=
  hf _ _ (h.moveTo (x.skipBlanks true h.cursors))

/-- Both pass the blanks of their lines. -/
theorem results_skipInlineBlanks {f : Unit → ScanOf σ β} {f' : Unit → ScanOf τ β'}
    (h : x.States s t) (hf : ∀ s t, x.States s t → x.Results W (f () s) (f' () t)) :
    x.Results W ((Scan.skipInlineBlanks >>= f) s) ((Scan.skipInlineBlanks >>= f') t) :=
  hf _ _ (h.moveTo (x.skipBlanks false h.cursors))

/-! ## What both readings see -/

/-- Both see the same access, -/
theorem access?_eq (h : x.cursors c d) : Token.access? c.rest = Token.access? d.rest := by
  rw [← Token.access?_solid, x.solid_eq h, Token.access?_solid]

/-- the same update, -/
theorem updateOperator?_eq (h : x.cursors c d) :
    Token.updateOperator? c.rest = Token.updateOperator? d.rest := by
  rw [← Token.updateOperator?_solid, x.solid_eq h, Token.updateOperator?_solid]

/-- the same unary operator, -/
theorem unaryOperator?_eq (h : x.cursors c d) :
    Token.unaryOperator? c.rest = Token.unaryOperator? d.rest := by
  rw [← Token.unaryOperator?_solid, x.solid_eq h, Token.unaryOperator?_solid]

/-- and the same infix operator. -/
theorem infixOperator?_eq (h : x.cursors c d) :
    Token.infixOperator? c.rest = Token.infixOperator? d.rest := by
  rw [← Token.infixOperator?_solid, x.solid_eq h, Token.infixOperator?_solid]

/-! ## Pieces that are taken -/

/-- Both see a solid pattern, or neither does. -/
theorem sees_eq {pattern : Pattern} (hpattern : pattern.IsSolid) (h : x.States s t) :
    (cursor s).sees pattern = (cursor t).sees pattern := by
  rw [Cursor.sees, Cursor.sees, ← hpattern.isAtStart_solid, x.solid_eq h.cursors,
    hpattern.isAtStart_solid]

/-- So both go on alike whether it is there or not. -/
theorem results_sees {pattern : Pattern} {f : Bool → ScanOf σ β} {f' : Bool → ScanOf τ β'}
    (hpattern : pattern.IsSolid) (h : x.States s t)
    (hf : ∀ found, x.Results W (f found s) (f' found t)) :
    x.Results W ((Scan.sees pattern >>= f) s) ((Scan.sees pattern >>= f') t) := by
  have hf' := hf ((cursor s).sees pattern)
  show x.Results W (f ((cursor s).sees pattern) s) (f' ((cursor t).sees pattern) t)
  rwa [← sees_eq hpattern h]

/-- The same piece is taken, and the states keep step. -/
theorem results_piece {pattern : Pattern} (hpattern : pattern.IsSolid) (h : x.States s t) :
    x.Results Eq (Scan.piece pattern s) (Scan.piece pattern t) := by
  have hpiece : pattern.piece (cursor s).rest = pattern.piece (cursor t).rest := by
    rw [← hpattern.piece_solid, x.solid_eq h.cursors, hpattern.piece_solid]
  have hlength : pattern.length (cursor s).rest = pattern.length (cursor t).rest := by
    rw [← hpattern.length_solid, x.solid_eq h.cursors, hpattern.length_solid]
  rw [Scan.piece, Scan.piece, here_bind, here_bind, Cursor.take?, Cursor.take?, ← hpiece, ← hlength]
  cases pattern.piece (cursor s).rest with
  | nil => exact ⟨rfl, h⟩
  | cons y ys => exact ⟨rfl, h.moveTo (x.skip h.cursors (hpattern.length_le _))⟩

/-- Both take a solid pattern, or neither does. -/
theorem results_takes {pattern : Pattern} (hpattern : pattern.IsSolid) (h : x.States s t) :
    x.Results Eq (Scan.takes pattern s) (Scan.takes pattern t) :=
  (results_piece hpattern h).bind fun _ _ _ _ hpiece h => results_pure (hpiece ▸ rfl) h

/-- So both go on alike whether it has been taken or not. -/
theorem results_takes_bind {pattern : Pattern} {f : Bool → ScanOf σ β} {f' : Bool → ScanOf τ β'}
    (hpattern : pattern.IsSolid) (h : x.States s t)
    (hf : ∀ found s t, x.States s t → x.Results W (f found s) (f' found t)) :
    x.Results W ((Scan.takes pattern >>= f) s) ((Scan.takes pattern >>= f') t) :=
  (results_takes hpattern h).bind fun found _ s t hfound h => hfound ▸ hf found s t h

/-- A pattern that is expected is there for both, or for neither. -/
theorem results_expect_bind {pattern : Pattern} {what : Expected} {f : Unit → ScanOf σ β}
    {f' : Unit → ScanOf τ β'} (hpattern : pattern.IsSolid) (h : x.States s t)
    (hf : ∀ s t, x.States s t → x.Results W (f () s) (f' () t)) :
    x.Results W ((Scan.expect pattern what >>= f) s) ((Scan.expect pattern what >>= f') t) := by
  have hexpect : x.Results (fun _ _ => True) (Scan.expect pattern what s)
      (Scan.expect pattern what t) := by
    refine results_takes_bind hpattern h fun found s t h => ?_
    cases found with
    | true => exact results_pure trivial h
    | false => exact results_fail h
  exact hexpect.bind fun _ _ s t _ h => hf s t h

/-- The same run of a class is taken, and the states keep step. -/
theorem results_takeWhile {p : Char → Bool} (hp : Text.IsSolid p) (h : x.States s t) :
    x.Results Eq (Scan.takeWhile p s) (Scan.takeWhile p t) := by
  have htake : (cursor s).rest.takeWhile p = (cursor t).rest.takeWhile p := by
    rw [← Text.takeWhile_solid hp, x.solid_eq h.cursors, Text.takeWhile_solid hp]
  rw [Scan.takeWhile, Scan.takeWhile, here_bind, here_bind, Cursor.takeWhile?, Cursor.takeWhile?,
    Cursor.skipWhile_eq_skip, Cursor.skipWhile_eq_skip, ← htake]
  have hskip := h.moveTo (x.skip h.cursors (Text.length_takeWhile_le_solid hp))
  cases hword : (cursor s).rest.takeWhile p with
  | nil => exact ⟨rfl, h⟩
  | cons y ys =>
    rw [hword] at hskip
    exact ⟨rfl, hskip⟩

/-- The same word is taken, and the states keep step. -/
theorem results_takeWord (h : x.States s t) :
    x.Results Eq (Scan.takeWord? s) (Scan.takeWord? t) := by
  have hword : Text.leadingWord (cursor s).rest = Text.leadingWord (cursor t).rest := by
    rw [← Text.leadingWord_solid, x.solid_eq h.cursors, Text.leadingWord_solid]
  rw [Scan.takeWord?, Scan.takeWord?, here_bind, here_bind, Cursor.takeWord?, Cursor.takeWord?,
    Cursor.word?, Cursor.word?, ← hword]
  have hskip := h.moveTo (x.skip h.cursors Text.length_leadingWord_le_solid)
  cases hword : Text.leadingWord (cursor s).rest with
  | nil => exact ⟨rfl, h⟩
  | cons y ys =>
    rw [hword] at hskip
    exact ⟨rfl, hskip⟩

/-- Both take the same access, or none. -/
theorem results_takeAccess {f : Option Access → ScanOf σ β} {f' : Option Access → ScanOf τ β'}
    (h : x.States s t)
    (hf : ∀ access? s t, x.States s t → x.Results W (f access? s) (f' access? t)) :
    x.Results W ((Token.takeAccess? >>= f) s) ((Token.takeAccess? >>= f') t) := by
  have hrun : x.Results Eq (Token.takeAccess? s) (Token.takeAccess? t) := by
    refine results_ahead ?_
    rw [← access?_eq h.cursors]
    cases haccess : Token.access? (cursor s).rest with
    | none => exact results_pure rfl h
    | some access =>
      refine results_skip h (Token.length_access_le haccess) fun s t h => ?_
      exact results_pure rfl h
  exact hrun.bind fun _ _ s t heq h => heq ▸ hf _ s t h

/-- Both take the same update, or none. -/
theorem results_takeUpdate {f : Option UpdateOperator → ScanOf σ β}
    {f' : Option UpdateOperator → ScanOf τ β'} (h : x.States s t)
    (hf : ∀ operator? s t, x.States s t → x.Results W (f operator? s) (f' operator? t)) :
    x.Results W ((Token.takeUpdate? >>= f) s) ((Token.takeUpdate? >>= f') t) := by
  have hrun : x.Results Eq (Token.takeUpdate? s) (Token.takeUpdate? t) := by
    refine results_ahead ?_
    rw [← updateOperator?_eq h.cursors]
    cases hoperator : Token.updateOperator? (cursor s).rest with
    | none => exact results_pure rfl h
    | some operator =>
      refine results_skip h (Token.length_updateOperator_le hoperator) fun s t h => ?_
      exact results_pure rfl h
  exact hrun.bind fun _ _ s t heq h => heq ▸ hf _ s t h

end Steps

/-! ## Leaves -/

section Leaves

variable {a b : Nat}

/-- Both read the same power of a number. -/
theorem results_power (h : x.States s t) : x.Results Eq (Leaf.power s) (Leaf.power t) := by
  refine (results_piece Pattern.isSolid_exponentMarker h).bind fun marker _ s t hmarker h => ?_
  subst hmarker
  dsimp only
  rw [ite_run, ite_run]
  split
  next => exact results_pure rfl h
  next =>
    refine (results_piece Pattern.isSolid_exponentSign h).bind fun sign _ s t hsign h => ?_
    refine (results_takeWhile Text.isSolid_isDigit h).bind fun digits _ s t hdigits h => ?_
    subst hsign hdigits
    rw [ite_run, ite_run]
    split
    next => exact results_fail_bind h
    next => exact results_pure rfl h

/-- Both read the same numeral. -/
theorem results_numberText (h : x.States s t) :
    x.Results Eq (Leaf.numberText s) (Leaf.numberText t) := by
  refine (results_takeWhile Text.isSolid_isDigit h).bind fun whole _ s t hwhole h => ?_
  refine (results_piece (Pattern.isSolid_char (by decide)) h).bind fun point _ s t hpoint h => ?_
  subst hwhole hpoint
  dsimp only
  rw [ite_run, ite_run]
  split
  next =>
    refine (results_power h).bind fun power _ s t hpower h => ?_
    exact results_pure (hpower ▸ rfl) h
  next =>
    refine (results_takeWhile Text.isSolid_isDigit h).bind fun fraction _ s t hfraction h => ?_
    refine (results_power h).bind fun power _ s t hpower h => ?_
    exact results_pure (hfraction ▸ hpower ▸ rfl) h

/-- Both read the same number. -/
theorem results_number (h : x.States s t) : x.Results x.Values (Leaf.number s) (Leaf.number t) := by
  refine results_position h fun a b hab => ?_
  refine (results_numberText h).bind fun raw _ s t hraw h => ?_
  subst hraw
  cases Decimal.read? raw with
  | none => exact results_failAt hab h
  | some decimal =>
    refine results_position h fun a' b' hab' => results_pure ?_ h
    show Expr.literal _ _ _ = .literal _ _ _
    rw [View.relocated_eq hab hab']

/-- The same word at offsets that compare looks the same. -/
theorem values_ofWord (hab : x.left a = x.right b) (n : Nat) (word : String) :
    x.Values (Leaf.ofWord ⟨a, a + n⟩ word) (Leaf.ofWord ⟨b, b + n⟩ word) := by
  show Expr.relocated _ _ = Expr.relocated _ _
  rw [View.relocated_ofWord, View.relocated_ofWord, View.relocated_eq hab (x.add_eq n hab)]

/-- Both read the same name of a property. -/
theorem results_propertyName (h : x.States s t) :
    x.Results x.Values (Leaf.propertyName s) (Leaf.propertyName t) := by
  refine results_position h fun a b hab => ?_
  refine (results_takeWord h).bind fun word? _ s t hword h => ?_
  subst hword
  cases word? with
  | none => exact results_fail_bind h
  | some word =>
    refine results_pure ?_ h
    show Expr.identifier _ _ = .identifier _ _
    rw [View.relocated_eq hab (x.add_eq _ hab)]

end Leaves

/-! ## Productions -/

/-- The grammars keep step on all productions. -/
def Grammars (x : Likeness σ τ) (g : Grammar σ) (g' : Grammar τ) (depth depth' : Nat) : Prop :=
  ∀ ⦃p q values⦄, Production.Like ⟨x.left, none⟩ ⟨x.right, none⟩ p q values →
    ∀ ⦃s t⦄, x.States s t → x.Results values (g depth p s) (g' depth' q t)

open View Production.Like

variable {g : Grammar σ} {g' : Grammar τ} {depth depth' : Nat}

/-- Expressions, in parentheses or not. -/
theorem results_sequence (hg : x.Grammars g g' depth depth') (h : x.States s t)
    {isGrouped : Bool} : x.Results x.Values (g.sequence depth isGrouped s)
      (g'.sequence depth' isGrouped t) := by
  refine results_skipBlanks h fun s t h => results_position h fun a b hab => ?_
  cases isGrouped with
  | false =>
    refine (hg (.expressions true) h).bind fun es es' s t hes h => ?_
    have hnode : x.Values (Grammar.sequenceNode? none es) (Grammar.sequenceNode? none es') :=
      Same.sequenceNode? x.comparable hes rfl
    rcases hes.eq_nil_or with ⟨rfl, rfl⟩ | ⟨e, rest, e', rest', rfl, rfl, he, hrest⟩
    · exact results_pure hnode h
    · rcases hrest.eq_nil_or with ⟨rfl, rfl⟩ | ⟨_, _, _, _, rfl, rfl, -, -⟩
      · exact results_pure hnode h
      · exact results_pure hnode h
  | true =>
    refine results_expect_bind (Pattern.isSolid_char (by decide)) h fun s t h => ?_
    refine (hg (.expressions true) h).bind fun es es' s t hes h => ?_
    refine results_expect_bind (Pattern.isSolid_char (by decide)) h fun s t h => ?_
    rcases hes.eq_nil_or with ⟨rfl, rfl⟩ | ⟨e, rest, e', rest', rfl, rfl, he, hrest⟩
    · exact results_failAt_bind hab h
    · rcases hrest.eq_nil_or with ⟨rfl, rfl⟩ | ⟨_, _, _, _, rfl, rfl, -, -⟩
      · exact results_pure he.some h
      · refine results_position h fun a' b' hab' => results_pure ?_ h
        have hspan : (some (Span.mk a a')).map (·.relocated x.left) =
            (some (Span.mk b b')).map (·.relocated x.right) :=
          congrArg some (relocated_eq hab hab')
        exact Same.sequenceNode? x.comparable hes hspan

/-- Expressions with commas between them. -/
theorem results_expressions (hg : x.Grammars g g' depth depth') (h : x.States s t)
    {isFirst : Bool} : x.Results x.Values (g.expressions depth isFirst s)
      (g'.expressions depth' isFirst t) := by
  refine (hg .expression h).bind fun e? e?' s t he h => ?_
  dsimp only
  have hnone : e?.isNone = e?'.isNone := by
    rcases he.eq_none_or with ⟨rfl, rfl⟩ | ⟨e, e', rfl, rfl, -⟩ <;> rfl
  rw [ite_run, ite_run, hnone]
  split
  next => exact results_fail_bind h
  next =>
    refine results_skipBlanks h fun s t h => results_position h fun a b hab => ?_
    refine results_takes_bind (Pattern.isSolid_char (by decide)) h fun comma s t h => ?_
    cases comma with
    | false => exact results_pure he.toList h
    | true =>
      rcases he.eq_none_or with ⟨rfl, rfl⟩ | ⟨e, e', rfl, rfl, hsame⟩
      · exact results_failAt hab h
      · refine (hg (.expressions false) h).bind fun es es' s t hes h => ?_
        exact results_pure (hsame.cons hes) h

/-- Operands and what a question mark brings. -/
theorem results_conditional (hg : x.Grammars g g' depth depth') (h : x.States s t) :
    x.Results x.Values (g.conditional depth s) (g'.conditional depth' t) := by
  refine (hg (.operands 1) h).bind fun test? test?' s t htest h => ?_
  refine results_skipBlanks h fun s t h => results_position h fun a b hab => ?_
  refine results_takes_bind (Pattern.isSolid_char (by decide)) h fun question s t h => ?_
  rcases htest.eq_none_or with ⟨rfl, rfl⟩ | ⟨test, test', rfl, rfl, hsame⟩
  · cases question with
    | false => exact results_pure same_none h
    | true => exact results_failAt hab h
  · cases question with
    | false => exact results_pure hsame.expr.some h
    | true =>
      refine (hg .expression h).bind fun consequent? consequent?' s t hconsequent h => ?_
      refine results_require h hconsequent fun consequent consequent' hconsequent => ?_
      refine results_skipBlanks h fun s t h => ?_
      refine results_expect_bind (Pattern.isSolid_char (by decide)) h fun s t h => ?_
      refine (hg .expression h).bind fun alternate? alternate?' s t halternate h => ?_
      refine results_require h halternate fun alternate alternate' halternate => ?_
      exact results_pure (Same.conditional x.comparable hsame.expr hconsequent halternate).some h

/-- The first operand and what goes on after it. -/
theorem results_climb (hg : x.Grammars g g' depth depth') (h : x.States s t) {least : Nat} :
    x.Results x.Values (g.climb depth least s) (g'.climb depth' least t) := by
  refine results_skipBlanks h fun s t h => results_ahead ?_
  rw [← unaryOperator?_eq h.cursors]
  refine (hg .unary h).bind fun left? left?' s t hleft h => ?_
  rcases hleft.eq_none_or with ⟨rfl, rfl⟩ | ⟨left, left', rfl, rfl, hsame⟩
  · exact results_pure same_none h
  · refine (hg (.infixes least _ (same_climbed hsame)) h).bind fun _ _ s t hclimbed h => ?_
    exact results_pure hclimbed.some h

/-- Infix operators with their right operands. -/
theorem results_infixes (hg : x.Grammars g g' depth depth') (h : x.States s t) {least : Nat}
    {left left' : Climbed} (hleft : x.Values left left') {isBareUnary : Bool} :
    x.Results x.Values (g.infixes depth least left isBareUnary s)
      (g'.infixes depth' least left' isBareUnary t) := by
  refine results_skipBlanks h fun s t h => results_ahead ?_
  rw [← infixOperator?_eq h.cursors]
  cases hop : Token.infixOperator? (cursor s).rest with
  | none => exact results_pure hleft h
  | some operator =>
    dsimp only
    rw [ite_run, ite_run, ite_run, ite_run]
    split
    next => exact results_pure hleft h
    next =>
      split
      next => exact results_failAt_bind (x.comparable.start hleft.expr) h
      next =>
        refine results_position h fun a b hab => ?_
        refine results_skip h (Token.length_infixOperator_le hop) fun s t h => ?_
        refine (hg (.operands operator.rightPrecedence) h).bind ?_
        intro right? right?' s t hright h
        refine results_require h hright fun right right' hsame => ?_
        have hjoined := Same.join x.comparable operator hleft.expr hsame.expr
        cases operator with
        | binary operator => exact hg (.infixes least false (same_climbed hjoined)) h
        | logical logical =>
          dsimp only
          rw [ite_run, ite_run, Same.clashes_eq hleft, hsame.clashes_eq]
          split
          next => exact results_failAt_bind hab h
          next => exact hg (.infixes least false (same_climbed hjoined)) h

/-- Unary operators and their operand. -/
theorem results_unaryForm (hg : x.Grammars g g' depth depth') (h : x.States s t) :
    x.Results x.Values (g.unaryForm depth s) (g'.unaryForm depth' t) := by
  refine results_skipBlanks h fun s t h => results_ahead ?_
  rw [← unaryOperator?_eq h.cursors]
  cases hop : Token.unaryOperator? (cursor s).rest with
  | none => exact hg .token h
  | some operator =>
    refine results_position h fun a b hab => ?_
    refine results_skip h (Token.length_unaryOperator_le hop) fun s t h => ?_
    refine (hg .unary h).bind fun argument? argument?' s t hargument h => ?_
    refine results_require h hargument fun argument argument' hargument => ?_
    exact results_pure (Same.unary x.comparable operator hab hargument).some h

/-- A run and the update behind it. -/
theorem results_token (hg : x.Grammars g g' depth depth') (h : x.States s t) :
    x.Results x.Values (g.token depth s) (g'.token depth' t) := by
  refine results_skipBlanks h fun s t h => ?_
  refine (hg .primary h).bind fun primary? primary?' s t hprimary h => ?_
  rcases hprimary.eq_none_or with ⟨rfl, rfl⟩ | ⟨primary, primary', rfl, rfl, hsame⟩
  · exact results_pure same_none h
  · refine (hg (.links (same_links hsame)) h).bind fun run run' s t hrun h => ?_
    have hnode := hrun.finish x.comparable
    refine results_skipInlineBlanks h fun s t h => results_takeUpdate h fun operator? s t h => ?_
    cases operator? with
    | none => exact results_pure hnode.some h
    | some operator =>
      refine Results.bind (V := x.Values) ?_ fun e e' s t he h => results_pure (Same.some he) h
      rw [Grammar.trailingUpdate, Grammar.trailingUpdate, ite_run, ite_run,
        Values.isPlace_eq hnode]
      split
      next => exact results_failAt_bind (x.comparable.start hnode) h
      next =>
        refine results_position h fun a b hab => results_pure ?_ h
        exact Same.update operator false nofun nofun (x.comparable.start hnode) hab hnode

/-- Links, one after the other. -/
theorem results_links (hg : x.Grammars g g' depth depth') (h : x.States s t)
    {before before' : Links} (hbefore : x.Values before before') :
    x.Results x.Values (g.links depth before s) (g'.links depth' before' t) := by
  refine results_here ?_
  have hmark := h.cursors
  refine results_skipBlanks h fun s t h => results_takeAccess h fun access? s t h => ?_
  cases access? with
  | some access =>
    refine (hg (.member access hbefore) h).bind fun between between' s t hbetween h => ?_
    exact hg (.links hbetween) h
  | none =>
    refine results_takes_bind (Pattern.isSolid_char (by decide)) h fun paren s t h => ?_
    cases paren with
    | true =>
      refine (hg (.call false hbefore) h).bind fun between between' s t hbetween h => ?_
      exact hg (.links hbetween) h
    | false => exact results_moveTo h hmark fun s t h => results_pure hbefore h

/-- What an access goes on with. -/
theorem results_whenAccess {before before' : Links} (hbefore : x.Values before before')
    {follow : Access → ScanOf σ Links} {follow' : Access → ScanOf τ Links} (h : x.States s t)
    (hfollow : ∀ access s t, x.States s t → x.Results x.Values (follow access s)
      (follow' access t)) :
    x.Results x.Values (Grammar.whenAccess before follow s)
      (Grammar.whenAccess before' follow' t) := by
  refine results_here ?_
  have hmark := h.cursors
  refine results_skipBlanks h fun s t h => results_takeAccess h fun access? s t h => ?_
  cases access? with
  | some access => exact hfollow access s t h
  | none => exact results_moveTo h hmark fun s t h => results_pure hbefore h

/-- Accesses, one after the other, or a call that takes over. -/
theorem results_accesses (hg : x.Grammars g g' depth depth') (h : x.States s t)
    {before before' : Links} (hbefore : x.Values before before') {access : Access} :
    x.Results x.Values (g.accesses depth before access s)
      (g'.accesses depth' before' access t) := by
  rw [Grammar.accesses, Grammar.accesses]
  dsimp only
  rw [ite_run, ite_run]
  split
  next hcomputed =>
    refine (hg (.sequence false) h).bind fun property? property?' s t hproperty h => ?_
    refine results_require h hproperty fun property property' hproperty => ?_
    refine results_skipBlanks h fun s t h => ?_
    refine results_expect_bind (Pattern.isSolid_char (by decide)) h fun s t h => ?_
    refine results_position h fun a b hab => ?_
    have hmember := hbefore.computed x.comparable hproperty hcomputed hab
    exact results_whenAccess hmember h fun next s t h => hg (.accesses next hmember) h
  next hcomputed =>
    refine results_skipBlanks h fun s t h => ?_
    refine results_takes_bind (Pattern.isSolid_char (by decide)) h fun paren s t h => ?_
    cases paren with
    | true => exact hg (.call access.optional (hbefore.withOptional access.optional)) h
    | false =>
      refine (results_propertyName h).bind fun property property' s t hproperty h => ?_
      have hmember := hbefore.named x.comparable hproperty (Bool.eq_false_iff.2 hcomputed)
        (x.comparable.stop hproperty)
      exact results_whenAccess hmember h fun next s t h => hg (.accesses next hmember) h

/-- A call and what goes on after it. -/
theorem results_call (hg : x.Grammars g g' depth depth') (h : x.States s t)
    {before before' : Links} (hbefore : x.Values before before') {optional : Bool} :
    x.Results x.Values (g.call depth before optional s) (g'.call depth' before' optional t) := by
  refine (hg .arguments h).bind fun es es' s t hes h => results_position h fun a b hab => ?_
  have hcall := hbefore.called x.comparable hes optional hab
  exact results_whenAccess hcall h fun next s t h => hg (.member next hcall) h

/-- Arguments to the parenthesis that closes. -/
theorem results_arguments (hg : x.Grammars g g' depth depth') (h : x.States s t) :
    x.Results x.Values (g.arguments depth s) (g'.arguments depth' t) := by
  refine (hg .argumentList h).bind fun es es' s t hes h => ?_
  exact results_expect_bind (Pattern.isSolid_char (by decide)) h fun s t h => results_pure hes h

/-- Arguments with commas between them. -/
theorem results_argumentList (hg : x.Grammars g g' depth depth') (h : x.States s t) :
    x.Results x.Values (g.argumentList depth s) (g'.argumentList depth' t) := by
  refine (hg .expression h).bind fun e? e?' s t he h => ?_
  refine results_skipBlanks h fun s t h => results_position h fun a b hab => ?_
  refine results_takes_bind (Pattern.isSolid_char (by decide)) h fun comma s t h => ?_
  cases comma with
  | false => exact results_pure he.toList h
  | true =>
    rcases he.eq_none_or with ⟨rfl, rfl⟩ | ⟨e, e', rfl, rfl, hsame⟩
    · exact results_failAt hab h
    · refine (hg .argumentList h).bind fun es es' s t hes h => ?_
      exact results_pure (hsame.cons hes) h

/-- Everything that a primary expression may be. -/
theorem results_primaryForm (hg : x.Grammars g g' depth depth') (h : x.States s t) :
    x.Results x.Values (g.primaryForm depth s) (g'.primaryForm depth' t) := by
  refine results_position h fun a b hab => ?_
  refine results_sees (Pattern.isSolid_char (by decide)) h fun paren => ?_
  rw [ite_run, ite_run]
  split
  next => exact hg (.sequence true) h
  next =>
    refine results_takeUpdate h fun operator? s t h => ?_
    cases operator? with
    | some operator =>
      refine (hg (.updated operator hab) h).bind fun e e' s t he h => ?_
      exact results_pure (Same.some he) h
    | none =>
      refine (results_takeWord h).bind fun word? _ s t hword h => ?_
      subst hword
      cases word? with
      | some word =>
        dsimp only
        rw [ite_run, ite_run]
        split
        next =>
          refine (hg (.construct hab) h).bind fun e e' s t he h => ?_
          exact results_pure (Same.some he) h
        next => exact results_pure (Same.some (values_ofWord hab _ _)) h
      | none =>
        refine results_sees Pattern.isSolid_numberStart h fun number => ?_
        rw [ite_run, ite_run]
        split
        next =>
          refine (results_number h).bind fun e e' s t he h => ?_
          exact results_pure (Same.some he) h
        next =>
          refine results_takes_bind (Pattern.isSolid_char (by decide)) h fun bracket s t h => ?_
          cases bracket with
          | false => exact results_pure same_none h
          | true =>
            refine (hg (.array hab) h).bind fun e e' s t he h => ?_
            exact results_pure (Same.some he) h

/-- A `new` with its callee. -/
theorem results_construct (hg : x.Grammars g g' depth depth') (h : x.States s t)
    {start start' : Nat}
    (hstart : x.left start = x.right start') :
    x.Results x.Values (g.construct depth start s) (g'.construct depth' start' t) := by
  refine results_skipBlanks h fun s t h => ?_
  refine (hg .primary h).bind fun primary? primary?' s t hprimary h => ?_
  refine results_require h hprimary fun primary primary' hprimary => ?_
  refine (hg (.calleeLinks (same_links hprimary)) h).bind fun callee callee' s t hcallee h => ?_
  dsimp only
  rw [ite_run, ite_run, hcallee.links.hasOptional, Values.isChain_eq hcallee.links.node]
  split
  next => exact results_failAt_bind hstart h
  next =>
    exact results_pure (Same.new nofun nofun hstart (x.comparable.calleeStop hcallee)
      hcallee.links.node hcallee.arguments) h

/-- The links of a callee, and its arguments. -/
theorem results_calleeLinks (hg : x.Grammars g g' depth depth') (h : x.States s t)
    {before before' : Links} (hbefore : x.Values before before') :
    x.Results x.Values (g.calleeLinks depth before s) (g'.calleeLinks depth' before' t) := by
  refine results_here ?_
  have hmark := h.cursors
  refine results_skipBlanks h fun s t h => results_takeAccess h fun access? s t h => ?_
  cases access? with
  | some access =>
    refine (hg (.member access hbefore) h).bind fun between between' s t hbetween h => ?_
    exact hg (.calleeLinks hbetween) h
  | none =>
    refine results_takes_bind (Pattern.isSolid_char (by decide)) h fun paren s t h => ?_
    cases paren with
    | true =>
      refine (hg .arguments h).bind fun es es' s t hes h => ?_
      exact results_position h fun a b hab => results_pure (same_calledWith hbefore hes hab) h
    | false => exact results_moveTo h hmark fun s t h => results_pure (same_uncalled hbefore) h

/-- A place behind an update. -/
theorem results_updated (hg : x.Grammars g g' depth depth') (h : x.States s t)
    {operator : UpdateOperator} {start start' : Nat} (hstart : x.left start = x.right start') :
    x.Results x.Values (g.updated depth operator start s)
      (g'.updated depth' operator start' t) := by
  refine (hg .token h).bind fun argument? argument?' s t hargument h => ?_
  refine results_require h hargument fun argument argument' hargument => ?_
  dsimp only
  rw [ite_run, ite_run, Values.isPlace_eq hargument]
  split
  next => exact results_failAt_bind (x.comparable.start hargument) h
  next =>
    have hstop := x.comparable.stop hargument
    exact results_pure (Same.update operator true nofun nofun hstart hstop hargument) h

/-- An array to its bracket. -/
theorem results_array (hg : x.Grammars g g' depth depth') (h : x.States s t) {start start' : Nat}
    (hstart : x.left start = x.right start') :
    x.Results x.Values (g.array depth start s) (g'.array depth' start' t) := by
  refine (hg .elements h).bind fun elements elements' s t helements h => ?_
  refine results_expect_bind (Pattern.isSolid_char (by decide)) h fun s t h => ?_
  exact results_position h fun a b hab => results_pure (Same.array hstart hab helements) h

/-- Elements with commas between them. -/
theorem results_elements (hg : x.Grammars g g' depth depth') (h : x.States s t) :
    x.Results x.Values (g.elements depth s) (g'.elements depth' t) := by
  refine (hg .expression h).bind fun e? e?' s t he h => ?_
  refine results_skipBlanks h fun s t h => ?_
  refine results_takes_bind (Pattern.isSolid_char (by decide)) h fun comma s t h => ?_
  cases comma with
  | true =>
    refine (hg .elements h).bind fun elements elements' s t helements h => ?_
    exact results_pure (Same.cons he helements) h
  | false => exact results_pure he.toElements h

/-- Grammars that keep step on all that a production opens, and on what it nests, keep step on
it. -/
theorem step_alike (hg : x.Grammars g g' depth depth')
    {nested : (p : Production) → ScanOf σ p.Yield} {nested' : (p : Production) → ScanOf τ p.Yield}
    (hnested : ∀ ⦃p q values⦄, Production.Like ⟨x.left, none⟩ ⟨x.right, none⟩ p q values →
      ∀ ⦃s t⦄, x.States s t → x.Results values (nested p s) (nested' q t))
    {p q : Production} {values : p.Yield → q.Yield → Prop}
    (hpq : Production.Like ⟨x.left, none⟩ ⟨x.right, none⟩ p q values) (h : x.States s t) :
    x.Results values (g.stepWith nested depth p s) (g'.stepWith nested' depth' q t) := by
  cases hpq with
  | sequence isGrouped => exact results_sequence hg h
  | expressions isFirst => exact results_expressions hg h
  | expression => exact hnested .conditional h
  | conditional => exact results_conditional hg h
  | operands least => exact hnested (.climb least) h
  | climb least => exact results_climb hg h
  | infixes least isBareUnary hleft => exact results_infixes hg h hleft
  | unary => exact hnested .unaryForm h
  | unaryForm => exact results_unaryForm hg h
  | token => exact results_token hg h
  | links hbefore => exact results_links hg h hbefore
  | primary => exact hnested .primaryForm h
  | primaryForm => exact results_primaryForm hg h
  | member access hbefore => exact hg (.accesses access hbefore) h
  | accesses access hbefore => exact results_accesses hg h hbefore
  | call optional hbefore => exact results_call hg h hbefore
  | arguments => exact results_arguments hg h
  | argumentList => exact results_argumentList hg h
  | construct hstart => exact results_construct hg h hstart
  | calleeLinks hbefore => exact results_calleeLinks hg h hbefore
  | updated operator hstart => exact results_updated hg h hstart
  | array hstart => exact results_array hg h hstart
  | elements => exact results_elements hg h

/-! ## Whole texts -/

/-- Behind blanks the same character is next in both readings. -/
theorem rest_skipBlanks (h : x.cursors c d) :
    (c.skipBlanks true).rest = [] ∧ (d.skipBlanks true).rest = [] ∨
      ∃ y ys zs, (c.skipBlanks true).rest = y :: ys ∧ (d.skipBlanks true).rest = y :: zs := by
  have hsolid := x.solid_eq (x.skipBlanks true h)
  have hhead : ∀ c : Cursor, (c.skipBlanks true).rest.head? =
      (Text.solid (c.skipBlanks true).rest).head? := fun c => by
    cases hrest : (c.skipBlanks true).rest with
    | nil => rfl
    | cons y ys =>
      have hy : Text.isBlank y = false := by
        have hmem : y ∈ (c.rest.dropWhile Text.isBlank).head? := by
          show y ∈ (c.skipBlanks true).rest.head?
          rw [hrest]
          rfl
        exact Text.not_of_mem_head?_dropWhile hmem
      rw [(Text.head?_solid hy).2 rfl]
      rfl
  have heq : (c.skipBlanks true).rest.head? = (d.skipBlanks true).rest.head? := by
    rw [hhead c, hhead d, hsolid]
  cases hc : (c.skipBlanks true).rest with
  | nil =>
    cases hd : (d.skipBlanks true).rest with
    | nil => exact Or.inl ⟨rfl, rfl⟩
    | cons z zs => rw [hc, hd] at heq; cases heq
  | cons y ys =>
    cases hd : (d.skipBlanks true).rest with
    | nil => rw [hc, hd] at heq; cases heq
    | cons z zs =>
      rw [hc, hd] at heq
      cases heq
      exact Or.inr ⟨y, ys, zs, rfl, rfl⟩

/-- Texts are read alike if their sequences are. -/
theorem results_programOf {read : Nat → ScanOf σ (Option Expr)}
    {read' : Nat → ScanOf τ (Option Expr)}
    (h : x.Results x.Values (read (cursor s).rest.length s) (read' (cursor t).rest.length t)) :
    x.Results x.Values (programOf read s) (programOf read' t) := by
  refine results_ahead (h.bind fun e? e?' s t he h => ?_)
  have hmoved := h.moveTo (x.skipBlanks true h.cursors)
  have hend := rest_skipBlanks h.cursors
  rw [← cursor_moveTo s ((cursor s).skipBlanks true),
    ← cursor_moveTo t ((cursor t).skipBlanks true)] at hend
  have hrun : ∀ {ρ : Type} [HasCursor ρ] (r : ρ) (f : List Char → ScanOf ρ Expr),
      (Scan.skipBlanks >>= fun _ => ahead >>= f) r =
        f (cursor (HasCursor.moveTo r ((cursor r).skipBlanks true))).rest
          (HasCursor.moveTo r ((cursor r).skipBlanks true)) := fun _ _ => rfl
  rw [hrun, hrun]
  rcases hend with ⟨hnil, hnil'⟩ | ⟨y, ys, zs, hcons, hcons'⟩
  · rw [hnil, hnil']
    rcases he.eq_none_or with ⟨rfl, rfl⟩ | ⟨e, e', rfl, rfl, hsame⟩
    · exact results_fail hmoved
    · exact results_pure hsame hmoved
  · rw [hcons, hcons']
    cases e? <;> cases e?' <;> exact results_fail hmoved

/-- The grammar keeps step with itself, from any two places that are such. -/
theorem grammars_unfold (x : Likeness Cursor Cursor) (fuel : Nat) :
    ∀ depth, x.Grammars (Grammar.unfold fuel) (Grammar.unfold fuel) depth depth := by
  induction fuel with
  | zero => exact fun _ _ _ _ _ _ _ h => results_fail h
  | succ fuel ih =>
    intro depth p q values hpq c d h
    refine step_alike (ih depth) (fun p q values hpq c d h => ?_) hpq h
    cases depth with
    | zero => exact results_fail h
    | succ below => exact ih below hpq h

end Likeness

end Estree
