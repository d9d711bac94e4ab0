import Estree.Proofs.Transfer.Links
import Estree.Proofs.Transfer.Operators

/-!
# Transferred primary expressions

Words, numbers, groups, arrays, `new` and updates, and with them whatever is read
(`Derives.transfers`). Here the word is replaced, if it is one, and here it is left alone where no
group could stand for it: after `new`, and where it is updated.

A word at the span is replaced by a group (`transfers_replacedWord`), and any other word is kept
(`transfers_keptWord`). A group is an operand wherever a word is one, and begins with a character
that stops all that a word stops. What it may not be is a place for an update or, if its tree is a
chain, the callee of a `new`; there the lemmas ask that the operand is not the word (`¬IsHole span?
…`), and `Derives.transfers` has this from a condition on the tree as a whole.

`Derives.transfers` is the induction that everything is assembled in: one case for each production,
by the lemma of that production.
-/

namespace Estree

open Text View

namespace Grammar

open Template

variable {span? : Option Span} {depth : Nat} {c c₁ c₂ c' : Cursor} {e : Expr} {e? : Option Expr}
  {es : List Expr} {primary : Expr} {run before between : Links} {callee : Callee} {access : Access}

/-! ## Tokens -/

/-- Where no primary expression began, none begins. -/
theorem transfers_noToken (h : Transfers span? depth .primary c.pastBlanks none c') :
    Transfers span? depth .token c none c' := by
  obtain ⟨m, hm, h⟩ := h
  refine ⟨_, hm.pastBlanks, ?_⟩
  rintro x rfl
  constructor
  · intro d d' hd hstand hfollows
    obtain ⟨hblanks, hd⟩ := hm.enter hstand hd hfollows.beside
    exact (h x rfl).enters hd hblanks.stand hfollows
  · rintro d d' q values hd hstand hfollows ⟨⟩
    obtain ⟨hblanks, hd⟩ := hm.enter hstand hd hfollows.beside
    obtain ⟨e?', he', hsame⟩ := (h x rfl).derives hd hblanks.stand hfollows .primary
    obtain rfl := hsame.eq_none
    exact ⟨none, .noToken he', same_none⟩

/-- A primary expression with its links, which is what a token is made of. -/
theorem transfers_run (hprimary : Transfers span? depth .primary c.pastBlanks (some primary) c₁)
    (hrun : Transfers span? depth (.links ⟨primary, false⟩) c₁ run c') :
    ∃ m, Covers span? c m c' ∧ ∀ x : Transfer, x.at? = span? → ∀ {d d' : Cursor},
      d.Passes (m.new x.text) d' → x.Stand c d → Follows false c'.rest d'.rest → Enters .token c d ∧
        ∃ d₁ primary' run', Derives (x.levels + depth) .primary d.pastBlanks (some primary') d₁ ∧
          Derives (x.levels + depth) (.links ⟨primary', false⟩) d₁ run' d' ∧
          x.left.Same x.right run run' := by
  obtain ⟨m₁, hm₁, h₁⟩ := hprimary
  obtain ⟨m₂, hm₂, h₂⟩ := hrun
  refine ⟨_, (hm₁.append hm₂).pastBlanks, ?_⟩
  rintro x rfl d d' hd hstand hfollows
  obtain ⟨hblanks, hd⟩ := (hm₁.append hm₂).enter hstand hd hfollows.beside
  obtain ⟨d₁, hd₁, hd, hstand₁⟩ := hm₁.split hblanks.stand hd
  have hfollows₁ : Follows false c₁.rest d₁.rest := (h₂ x rfl).enters hd hstand₁ hfollows
  obtain ⟨primary?, hprimary', hsame?⟩ :=
    (h₁ x rfl).derives hd₁ hblanks.stand hfollows₁ .primary
  obtain ⟨primary', rfl, hsame⟩ := hsame?.exists_some
  obtain ⟨run', hrun', hsame'⟩ := (h₂ x rfl).derives hd hstand₁ hfollows
    (.links (same_links hsame))
  exact ⟨(h₁ x rfl).enters hd₁ hblanks.stand hfollows₁, d₁, primary', run', hprimary', hrun',
    hsame'⟩

/-- A run with no update behind it. -/
theorem transfers_token (hprimary : Transfers span? depth .primary c.pastBlanks (some primary) c₁)
    (hrun : Transfers span? depth (.links ⟨primary, false⟩) c₁ run c')
    (hop : Token.updateOperator? (c'.skipBlanks false).rest = none) :
    Transfers span? depth .token c (some run.finish) (c'.skipBlanks false) := by
  obtain ⟨m, hm, h⟩ := transfers_run hprimary hrun
  refine ⟨_, hm.append (.keep c'.passes_inlineBlanks), ?_⟩
  rintro x rfl
  have hparts : ∀ {d d' : Cursor}, d.Passes ((m ++ keep c'.inlineBlanks).new x.text) d' →
      x.Stand c d → Follows false (c'.skipBlanks false).rest d'.rest →
        ∃ d₂, d.Passes (m.new x.text) d₂ ∧ d' = d₂.skipBlanks false ∧
          Follows false c'.rest d₂.rest := by
    intro d d' hd hstand hfollows
    obtain ⟨d₂, hd₂, hd, -⟩ := hm.split hstand hd
    rw [new_keep] at hd
    refine ⟨d₂, hd₂, hd.eq_skipBlanks hfollows.beside, ?_⟩
    rw [c'.passes_inlineBlanks.rest_eq, hd.rest_eq]
    exact hfollows.blanks c'.isBlank_of_mem_inlineBlanks
  constructor
  · intro d d' hd hstand hfollows
    obtain ⟨d₂, hd₂, -, hfollows₂⟩ := hparts hd hstand hfollows
    exact (h x rfl hd₂ hstand hfollows₂).1
  · rintro d d' q values hd hstand hfollows ⟨⟩
    obtain ⟨d₂, hd₂, rfl, hfollows₂⟩ := hparts hd hstand hfollows
    obtain ⟨-, d₁, primary', run', hprimary', hrun', hsame⟩ := h x rfl hd₂ hstand hfollows₂
    exact ⟨_, .token hprimary' hrun' (hfollows₂.updateOperator?_eq_none hop),
      (hsame.finish x.comparable).some⟩

/-- A run with an update behind it on the same line. -/
theorem transfers_trailingUpdate {operator : UpdateOperator}
    (hprimary : Transfers span? depth .primary c.pastBlanks (some primary) c₁)
    (hrun : Transfers span? depth (.links ⟨primary, false⟩) c₁ run c')
    (hop : Token.updateOperator? (c'.skipBlanks false).rest = some operator)
    (hplace : run.finish.isPlace = true) (hhole : ¬IsHole span? run.finish) :
    Transfers span? depth .token c
      (some (.update
        ⟨run.finish.span.start, ((c'.skipBlanks false).skip operator.text.length).position⟩
        operator false run.finish))
      ((c'.skipBlanks false).skip operator.text.length) := by
  obtain ⟨m, hm, h⟩ := transfers_run hprimary hrun
  obtain ⟨rest, hrest⟩ := Token.updateOperator?_eq_some hop
  have hlength : operator.text.toList.length = operator.text.length := String.length_toList
  have hpass : (c'.skipBlanks false).Passes operator.text.toList
      ((c'.skipBlanks false).skip operator.text.length) :=
    hlength ▸ Cursor.passes_skip hrest
  refine ⟨_, hm.append (.keep (c'.passes_inlineBlanks.trans hpass)), ?_⟩
  rintro x rfl
  -- The new text has the operator behind the new piece for the run, with the same blanks between
  -- them.
  have hparts : ∀ {d d' : Cursor},
      d.Passes ((m ++ keep (c'.inlineBlanks ++ operator.text.toList)).new x.text) d' →
      x.Stand c d → ∃ d₂, d.Passes (m.new x.text) d₂ ∧
        Token.updateOperator? (d₂.skipBlanks false).rest = some operator ∧
        d' = (d₂.skipBlanks false).skip operator.text.length ∧
        x.Stand ((c'.skipBlanks false).skip operator.text.length) d' ∧
        Follows false c'.rest d₂.rest := by
    intro d d' hd hstand
    obtain ⟨d₂, hd₂, hd, hstand₂⟩ := hm.split hstand hd
    rw [new_keep] at hd
    obtain ⟨hd₃, hd₄⟩ := hd.split
    have hne : operator.text.toList ≠ [] := by cases operator <;> exact List.cons_ne_nil _ _
    have hblanks := hd₃.eq_skipBlanks (hpass.beside_of_ne_nil hd₄ hne)
    rw [hblanks] at hd₃ hd₄
    have hop' : Token.updateOperator? (d₂.skipBlanks false).rest = some operator := by
      rw [hd₄.rest_eq]
      exact Token.updateOperator?_text operator
    refine ⟨d₂, hd₂, hop', hlength ▸ hd₄.eq_skip,
      hstand₂.kept (c'.passes_inlineBlanks.trans hpass) hd, ?_⟩
    rw [c'.passes_inlineBlanks.rest_eq, hd₃.rest_eq]
    exact (follows_update hop hop').blanks c'.isBlank_of_mem_inlineBlanks
  constructor
  · rintro d d' hd hstand -
    obtain ⟨d₂, hd₂, -, -, -, hfollows₂⟩ := hparts hd hstand
    exact (h x rfl hd₂ hstand hfollows₂).1
  · rintro d d' q values hd hstand - ⟨⟩
    obtain ⟨d₂, hd₂, hop', rfl, hstand', hfollows₂⟩ := hparts hd hstand
    obtain ⟨-, d₁, primary', run', hprimary', hrun', hsame⟩ := h x rfl hd₂ hstand hfollows₂
    have hfinish := hsame.finish x.comparable
    have hplace' : run'.finish.isPlace = true := (x.isPlace_eq hfinish hhole).trans hplace
    exact ⟨_, .trailingUpdate hprimary' hrun' hop' hplace', (Same.update operator false
      (x.not_isAt hhole) x.right_not_isAt (x.comparable.start hfinish) hstand' hfinish).some⟩

/-! ## Words, numbers and groups -/

/-- A primary expression is what is below it, one level up. -/
theorem transfers_primary (h : Transfers span? depth .primaryForm c e? c') :
    Transfers span? (depth + 1) .primary c e? c' := by
  obtain ⟨m, hm, h⟩ := h
  refine ⟨m, hm, ?_⟩
  rintro x rfl
  refine ⟨(h x rfl).enters, ?_⟩
  rintro d d' q values hd hstand hfollows ⟨⟩
  obtain ⟨e?', he', hsame⟩ := (h x rfl).derives hd hstand hfollows .primaryForm
  exact ⟨e?', .primary he', hsame⟩

/-- No unary operator begins with one of these characters. -/
theorem unaryOperator?_opening {text : List Char} {y : Char} (h : text.head? = some y)
    (hy : y ∈ ['(', '[', '.']) : Token.unaryOperator? text = none := by
  refine Token.unaryOperator?_eq_none fun z hz => ?_
  obtain rfl := Option.some.inj (h.symm.trans hz)
  have hall : ['(', '[', '.'].all
      (fun x => !isIdentifierStart x && !(x ∈ Token.unarySymbols)) = true := by
    decide
  simpa using List.all_eq_true.1 hall y hy

/-- A parenthesis opens a group. -/
theorem transfers_group (hopen : c.rest.head? = some '(')
    (h : Transfers span? depth (.sequence true) c e? c') :
    Transfers span? depth .primaryForm c e? c' := by
  obtain ⟨m, hm, h⟩ := h
  refine ⟨m, hm, ?_⟩
  rintro x rfl
  constructor
  · intro d d' hd hstand hfollows hop
    exact unaryOperator?_opening ((h x rfl).enters hd hstand hfollows hopen) (by decide)
  · rintro d d' q values hd hstand hfollows ⟨⟩
    obtain ⟨e?', he', hsame⟩ := (h x rfl).derives hd hstand hfollows (.sequence true)
    exact ⟨e?', .group ((h x rfl).enters hd hstand hfollows hopen) he', hsame⟩

/-- An update before its place. -/
theorem transfers_leadingUpdate {operator : UpdateOperator}
    (hop : Token.updateOperator? c.rest = some operator)
    (h : Transfers span? depth (.updated operator c.position) (c.skip operator.text.length) e
      c') :
    Transfers span? depth .primaryForm c (some e) c' := by
  obtain ⟨m, hm, h⟩ := h
  obtain ⟨rest, hrest⟩ := Token.updateOperator?_eq_some hop
  have hlength : operator.text.toList.length = operator.text.length := String.length_toList
  refine ⟨_, hm.ofPiece hrest hlength, ?_⟩
  rintro x rfl
  have hfound : ∀ {d d' : Cursor}, d.Passes ((keep operator.text.toList ++ m).new x.text) d' →
      x.Stand c d → Token.updateOperator? d.rest = some operator := by
    intro d d' hd hstand
    rw [(Covers.enterPiece hstand hrest hlength hd).1]
    exact Token.updateOperator?_text operator
  constructor
  · rintro d d' hd hstand - -
    exact Token.unaryOperator?_of_updateOperator? (hfound hd hstand)
  · rintro d d' q values hd hstand hfollows ⟨⟩
    have hop' := hfound hd hstand
    obtain ⟨-, hd, hstand'⟩ := Covers.enterPiece hstand hrest hlength hd
    obtain ⟨e', he', hsame⟩ := (h x rfl).derives hd hstand' hfollows (.updated operator hstand)
    exact ⟨some e', .leadingUpdate hop' he', hsame.some⟩

/-- A word that is no operator is none in another text. -/
theorem unaryOperator?_word {old new word : List Char} (hold : leadingWord old = word)
    (hnew : leadingWord new = word) (hne : word ≠ []) (h : Token.unaryOperator? old = none) :
    Token.unaryOperator? new = none := by
  rwa [Token.unaryOperator?_of_leadingWord hnew hne, ← Token.unaryOperator?_of_leadingWord hold hne]

/-- The word `new` before its callee. -/
theorem transfers_new (hword : leadingWord c.rest = "new".toList)
    (h : Transfers span? depth (.construct c.position) (c.skip "new".toList.length) e c') :
    Transfers span? depth .primaryForm c (some e) c' := by
  obtain ⟨m, hm, h⟩ := h
  have hpass : c.Passes "new".toList (c.skip "new".toList.length) := hword ▸ c.passes_leadingWord
  refine ⟨_, hm.ofPiece hpass.rest_eq rfl, ?_⟩
  rintro x rfl
  have hfound : ∀ {d d' : Cursor}, d.Passes ((keep "new".toList ++ m).new x.text) d' →
      x.Stand c d → Follows false c'.rest d'.rest → leadingWord d.rest = "new".toList := by
    intro d d' hd hstand hfollows
    obtain ⟨hrest, hd, -⟩ := Covers.enterPiece hstand hpass.rest_eq rfl hd
    rw [hrest]
    exact leadingWord_beside (hpass.rest_eq ▸ hword) (by decide) (hm.beside hd hfollows.beside)
  constructor
  · intro d d' hd hstand hfollows
    exact unaryOperator?_word hword (hfound hd hstand hfollows) (by decide)
  · rintro d d' q values hd hstand hfollows ⟨⟩
    have hword' := hfound hd hstand hfollows
    obtain ⟨-, hd, hstand'⟩ := Covers.enterPiece hstand hpass.rest_eq rfl hd
    obtain ⟨e', he', hsame⟩ := (h x rfl).derives hd hstand' hfollows (.construct hstand)
    exact ⟨some e', .new hword' he', hsame.some⟩

/-- A word that is not replaced looks like itself. -/
theorem tree_ofWord {x : Transfer} {span : Span} {word : String}
    (h : ¬IsHole x.at? (Leaf.ofWord span word)) :
    x.left.tree (Leaf.ofWord span word) = (Leaf.ofWord span word).relocated x.offset := by
  rcases ofWord_cases span word with hsame | hidentifier
  · exact hsame x.left
  · rw [hidentifier] at h ⊢
    refine tree_identifier _ _ _ fun hole hhole hstart => ?_
    exact Bool.eq_false_iff.1 (x.not_isAt h hole hhole) (beq_iff_eq.2 hstart)

/-- A word that is not at the span stays. -/
theorem transfers_keptWord {word : List Char} (hword : leadingWord c.rest = word) (hne : word ≠ [])
    (hnew : word ≠ "new".toList)
    (hhole : ¬IsHole span?
      (Leaf.ofWord ⟨c.position, c.position + Text.utf8Size word⟩ (String.ofList word))) :
    Transfers span? depth .primaryForm c
      (some (Leaf.ofWord ⟨c.position, c.position + Text.utf8Size word⟩ (String.ofList word)))
      (c.skip word.length) := by
  have hpass : c.Passes word (c.skip word.length) := hword ▸ c.passes_leadingWord
  refine ⟨_, .keep hpass, ?_⟩
  rintro x rfl
  have hfound : ∀ {d d' : Cursor}, d.Passes ((keep word).new x.text) d' →
      Follows false (c.skip word.length).rest d'.rest →
        leadingWord d.rest = word ∧ d' = d.skip word.length := by
    intro d d' hd hfollows
    rw [new_keep] at hd
    refine ⟨?_, hd.eq_skip⟩
    rw [hd.rest_eq]
    exact leadingWord_beside (hpass.rest_eq ▸ hword) hne hfollows.beside
  constructor
  · intro d d' hd hstand hfollows
    exact unaryOperator?_word hword (hfound hd hfollows).1 hne
  · rintro d d' q values hd hstand hfollows ⟨⟩
    obtain ⟨hword', rfl⟩ := hfound hd hfollows
    refine ⟨_, .word hword' hne hnew, Same.some ?_⟩
    have htree := tree_ofWord hhole
    show x.left.tree _ = Expr.relocated x.offset _
    rw [htree, relocated_ofWord, relocated_ofWord,
      relocated_eq hstand (x.offset_add (utf8Size word) hstand)]

/-- The word is replaced here. -/
theorem transfers_replacedWord {word : List Char} (hword : leadingWord c.rest = word)
    (hne : word ≠ [])
    (hhole : IsHole span?
      (Leaf.ofWord ⟨c.position, c.position + Text.utf8Size word⟩ (String.ofList word))) :
    Transfers span? depth .primaryForm c
      (some (Leaf.ofWord ⟨c.position, c.position + Text.utf8Size word⟩ (String.ofList word)))
      (c.skip word.length) := by
  have hpass : c.Passes word (c.skip word.length) := hword ▸ c.passes_leadingWord
  obtain ⟨hat, hidentifier⟩ : ⟨c.position, c.position + Text.utf8Size word⟩ ∈ span? ∧
      Leaf.ofWord ⟨c.position, c.position + Text.utf8Size word⟩ (String.ofList word) =
        .identifier ⟨c.position, c.position + Text.utf8Size word⟩ (String.ofList word) := by
    unfold Leaf.ofWord at hhole ⊢
    split at hhole
    · exact hhole.elim
    · exact hhole.elim
    · exact hhole.elim
    · exact hhole.elim
    · exact ⟨hhole, rfl⟩
  refine ⟨[.word word], ⟨?_, hne, hat, trivial⟩, ?_⟩
  · exact hpass.of_eq (List.append_nil word).symm
  · rintro x rfl
    constructor
    · rintro d d' hd - - -
      exact unaryOperator?_opening hd.head?_rest (by decide)
    · rintro d d' q values hd - - ⟨⟩
      obtain ⟨hole, hhole, hoffset⟩ := Option.map_eq_some_iff.1 (Option.mem_def.1 hat)
      obtain ⟨e', he', hsame⟩ := x.fills hole hhole depth hd
      refine ⟨some e', he', Same.some ?_⟩
      show x.left.tree _ = Expr.relocated x.offset e'
      rw [hidentifier, tree_identifier_isAt x.left _ _ hhole hoffset.symm, hsame]
      rfl

/-- A word stays or is replaced by the group. -/
theorem transfers_word {word : List Char} (hword : leadingWord c.rest = word) (hne : word ≠ [])
    (hnew : word ≠ "new".toList) :
    Transfers span? depth .primaryForm c
      (some (Leaf.ofWord ⟨c.position, c.position + Text.utf8Size word⟩ (String.ofList word)))
      (c.skip word.length) := by
  by_cases hhole : IsHole span?
      (Leaf.ofWord ⟨c.position, c.position + Text.utf8Size word⟩ (String.ofList word))
  · exact transfers_replacedWord hword hne hhole
  · exact transfers_keptWord hword hne hnew hhole

/-- A number is read to the same end. -/
theorem transfers_number (hstart : Pattern.numberStart.isAtStart c.rest = true)
    (hnumber : Leaf.number c = .ok e c') :
    Transfers span? depth .primaryForm c (some e) c' := by
  obtain ⟨text, decimal, -, hpass, rfl, hread⟩ := Leaf.number_beside hstart hnumber
  refine ⟨_, .keep hpass, ?_⟩
  rintro x rfl
  constructor
  · rintro d d' hd - hfollows -
    rw [new_keep] at hd
    exact Token.unaryOperator?_of_numberStart (hread hd hfollows.beside).1
  · rintro d d' q values hd hstand hfollows ⟨⟩
    rw [new_keep] at hd
    obtain ⟨hstart', hnumber'⟩ := hread hd hfollows.beside
    refine ⟨_, .number hstart' hnumber', Same.some ?_⟩
    show x.left.tree _ = Expr.literal _ _ _
    rw [tree_literal]
    exact congrArg (Expr.literal · _ _) (relocated_eq hstand (hstand.kept hpass hd))

/-- Where no unary operator is read, and none that updates, there is no sign of one. -/
theorem not_mem_unarySymbols {text : List Char} {y : Char}
    (hop : Token.unaryOperator? text = none) (hupdate : Token.updateOperator? text = none)
    (hy : text.head? = some y) : y ∉ Token.unarySymbols := by
  intro hmem
  obtain ⟨ys, rfl⟩ := List.head?_eq_some_iff.1 hy
  rw [Token.unaryOperator?, Token.isAtStart_updateOperator, hupdate, Option.isSome_none,
    if_neg Bool.false_ne_true] at hop
  simp only [Token.unarySymbols, List.mem_cons, List.not_mem_nil, or_false] at hmem
  rcases hmem with rfl | rfl | rfl | rfl <;> cases hop

/-- What began no primary expression begins none. -/
theorem transfers_noPrimary (hparen : c.rest.head? ≠ some '(')
    (hupdate : Token.updateOperator? c.rest = none) (hword : leadingWord c.rest = [])
    (hnumber : Pattern.numberStart.isAtStart c.rest = false)
    (hbracket : c.rest.head? ≠ some '[') : Transfers span? depth .primaryForm c none c := by
  refine ⟨[], .refl span? c, ?_⟩
  rintro x rfl
  have hstart : ∀ {y : Char}, c.rest.head? = some y → isIdentifierStart y = false :=
    fun hy => Bool.eq_false_iff.2 fun hstart => leadingWord_ne_nil_iff.2 ⟨_, hy, hstart⟩ hword
  constructor
  · intro d d' hd hstand hfollows hop
    rw [hd.eq_of_nil] at hfollows
    refine Token.unaryOperator?_eq_none (hfollows.beside.forall_head? (fun y hy => ?_) (by decide))
    exact ⟨hstart hy, not_mem_unarySymbols hop hupdate hy⟩
  · rintro d d' q values hd hstand hfollows ⟨⟩
    obtain rfl := hd.eq_of_nil
    refine ⟨none, .noPrimary (hfollows.head?_ne hparen (by decide)) ?_ ?_ ?_
      (hfollows.head?_ne hbracket (by decide)), same_none⟩
    · exact hfollows.updateOperator?_head hupdate
    · exact leadingWord_eq_nil (hfollows.beside.forall_head? (fun y hy => hstart hy) (by decide))
    · exact Bool.eq_false_iff.2 fun hnumber' => by
        rw [hfollows.number hnumber'] at hnumber
        cases hnumber

/-! ## Arrays -/

/-- A bracket opens an array. -/
theorem transfers_arrayLiteral (hopen : c.rest.head? = some '[')
    (h : Transfers span? depth (.array c.position) (c.skip 1) e c') :
    Transfers span? depth .primaryForm c (some e) c' := by
  obtain ⟨m, hm, h⟩ := h
  have hrest := Cursor.rest_eq_cons_skip hopen
  refine ⟨_, hm.ofPiece hrest rfl, ?_⟩
  rintro x rfl
  have hfound : ∀ {d d' : Cursor}, d.Passes ((keep ['['] ++ m).new x.text) d' → x.Stand c d →
      d.rest.head? = some '[' := by
    intro d d' hd hstand
    rw [(Covers.enterPiece hstand hrest rfl hd).1]
    rfl
  constructor
  · rintro d d' hd hstand - -
    exact unaryOperator?_opening (hfound hd hstand) (by decide)
  · rintro d d' q values hd hstand hfollows ⟨⟩
    have hopen' := hfound hd hstand
    obtain ⟨-, hd, hstand'⟩ := Covers.enterPiece hstand hrest rfl hd
    obtain ⟨e', he', hsame⟩ := (h x rfl).derives hd hstand' hfollows (.array hstand)
    exact ⟨some e', .arrayLiteral hopen' he', hsame.some⟩

/-- The bracket that closed the array closes it. -/
theorem transfers_array {start : Nat} {elements : List (Option Expr)}
    (h : Transfers span? depth .elements c elements c') (hclose : c'.rest.head? = some ']') :
    Transfers span? depth (.array start) c (.array ⟨start, (c'.skip 1).position⟩ elements)
      (c'.skip 1) := by
  obtain ⟨m, hm, h⟩ := h
  have hpass := Cursor.passes_skip (Cursor.rest_eq_cons_skip hclose)
  refine ⟨_, hm.append (.keep hpass), ?_⟩
  rintro x rfl
  refine ⟨fun _ _ _ => trivial, ?_⟩
  rintro d d' q values hd hstand - ⟨⟩
  rename_i start' hstart
  obtain ⟨d₁, hd₁, hd, hstand₁⟩ := hm.split hstand hd
  rw [new_keep] at hd
  have hclose' : d₁.rest.head? = some ']' := hd.head?_rest
  have hstand' := hstand₁.kept hpass hd
  obtain rfl : d' = d₁.skip 1 := hd.eq_skip
  obtain ⟨elements', helements', hsame⟩ := (h x rfl).derives hd₁ hstand
    (follows_char _ hclose hclose' (by decide)) .elements
  exact ⟨_, .array helements' hclose', Same.array hstart hstand' hsame⟩

/-- Elements end where no comma followed. -/
theorem transfers_lastElement (h : Transfers span? depth .expression c e? c')
    (hcomma : c'.pastBlanks.rest.head? ≠ some ',') :
    Transfers span? depth .elements c (e?.toList.map some) c'.pastBlanks := by
  obtain ⟨m, hm, h⟩ := h
  refine ⟨_, hm.append (.keep c'.passes_blanks), ?_⟩
  rintro x rfl
  refine ⟨fun _ _ _ => trivial, ?_⟩
  rintro d d' q values hd hstand hfollows ⟨⟩
  obtain ⟨d₁, hd₁, hblanks, rfl, hfollows₁⟩ := hm.leave hstand hd hfollows
  obtain ⟨e?', he', hsame⟩ := (h x rfl).derives hd₁ hstand hfollows₁.untaken .expression
  exact ⟨_, .lastElement he' (hfollows.head?_ne_comma hcomma), hsame.toElements⟩

/-- Elements go on behind a comma, and a hole is one. -/
theorem transfers_moreElements {elements : List (Option Expr)}
    (he : Transfers span? depth .expression c e? c₁)
    (hcomma : c₁.pastBlanks.rest.head? = some ',')
    (helements : Transfers span? depth .elements (c₁.pastBlanks.skip 1) elements c') :
    Transfers span? depth .elements c (e? :: elements) c' := by
  obtain ⟨m₁, hm₁, h₁⟩ := he
  obtain ⟨m₂, hm₂, h₂⟩ := helements
  refine ⟨_, hm₁.append (hm₂.char hcomma), ?_⟩
  rintro x rfl
  refine ⟨fun _ _ _ => trivial, ?_⟩
  rintro d d' q values hd hstand hfollows ⟨⟩
  obtain ⟨d₁, hd₁, hd, hstand₁⟩ := hm₁.split hstand hd
  obtain ⟨hblanks, hcomma', hd, hstand₂⟩ := Covers.enterChar hstand₁ hcomma hd
  obtain ⟨elements', helements', hsames⟩ := (h₂ x rfl).derives hd hstand₂ hfollows .elements
  have hfollows₁ := hblanks.follows (follows_char false hcomma hcomma' (by decide))
  obtain ⟨e?', he', hsame⟩ := (h₁ x rfl).derives hd₁ hstand hfollows₁ .expression
  exact ⟨_, .moreElements he' hcomma' helements', hsame.cons hsames⟩

/-! ## Updates and `new` -/

/-- What is updated is a place still, as it is not the word. -/
theorem transfers_updated {operator : UpdateOperator} {start : Nat} {argument : Expr}
    (h : Transfers span? depth .token c (some argument) c') (hplace : argument.isPlace = true)
    (hhole : ¬IsHole span? argument) :
    Transfers span? depth (.updated operator start) c
      (.update ⟨start, argument.span.stop⟩ operator true argument) c' := by
  obtain ⟨m, hm, h⟩ := h
  refine ⟨m, hm, ?_⟩
  rintro x rfl
  refine ⟨fun _ _ _ => trivial, ?_⟩
  rintro d d' q values hd hstand hfollows ⟨⟩
  rename_i start' hstart
  obtain ⟨argument?, hargument', hsame?⟩ := (h x rfl).derives hd hstand hfollows .token
  obtain ⟨argument', rfl, hsame⟩ := hsame?.exists_some
  exact ⟨_, .updated hargument' ((x.isPlace_eq hsame hhole).trans hplace),
    Same.update operator true (x.not_isAt hhole) x.right_not_isAt hstart (x.comparable.stop hsame)
      hsame⟩

/-- The callee is no chain still, as it is not the word. -/
theorem transfers_construct {start : Nat}
    (hprimary : Transfers span? depth .primary c.pastBlanks (some primary) c₁)
    (hcallee : Transfers span? depth (.calleeLinks ⟨primary, false⟩) c₁ callee c')
    (hoptional : callee.links.hasOptional = false) (hchain : callee.links.node.isChain = false)
    (hhole : ¬IsHole span? callee.links.node) :
    Transfers span? depth (.construct start) c
      (.new ⟨start, callee.stop?.getD callee.links.node.span.stop⟩ callee.links.node
        callee.arguments) c' := by
  obtain ⟨m₁, hm₁, h₁⟩ := hprimary
  obtain ⟨m₂, hm₂, h₂⟩ := hcallee
  refine ⟨_, (hm₁.append hm₂).pastBlanks, ?_⟩
  rintro x rfl
  refine ⟨fun _ _ _ => trivial, ?_⟩
  rintro d d' q values hd hstand hfollows ⟨⟩
  rename_i start' hstart
  obtain ⟨hblanks, hd⟩ := (hm₁.append hm₂).enter hstand hd hfollows.beside
  obtain ⟨d₁, hd₁, hd, hstand₁⟩ := hm₁.split hblanks.stand hd
  have hfollows₁ : Follows false c₁.rest d₁.rest := (h₂ x rfl).enters hd hstand₁ hfollows
  obtain ⟨primary?, hprimary', hsame?⟩ :=
    (h₁ x rfl).derives hd₁ hblanks.stand hfollows₁ .primary
  obtain ⟨primary', rfl, hsame⟩ := hsame?.exists_some
  obtain ⟨callee', hcallee', hsame'⟩ := (h₂ x rfl).derives hd hstand₁ hfollows
    (.calleeLinks (same_links hsame))
  exact ⟨_, .construct hprimary' hcallee' (hsame'.links.hasOptional ▸ hoptional)
    ((x.isChain_eq hsame'.links.node hhole).trans hchain),
    Same.new (x.not_isAt hhole) x.right_not_isAt hstart (x.comparable.calleeStop hsame')
      hsame'.links.node hsame'.arguments⟩

/-- A callee that ends here ends here, without arguments. -/
theorem transfers_noCalleeLink (haccess : Token.access? c.pastBlanks.rest = none)
    (hparen : c.pastBlanks.rest.head? ≠ some '(') :
    Transfers span? depth (.calleeLinks before) c ⟨before, [], none⟩ c := by
  refine ⟨[], .refl span? c, ?_⟩
  rintro x rfl
  constructor
  · rintro d d' hd - hfollows
    rwa [hd.eq_of_nil] at hfollows
  · rintro d d' q values hd hstand hfollows ⟨⟩
    rename_i before' hbefore
    obtain rfl := hd.eq_of_nil
    exact ⟨_, .noCalleeLink (hfollows.access?_eq_none haccess)
      (hfollows.first_ne hparen (by decide)), same_uncalled hbefore⟩

/-- An access goes on with the callee. -/
theorem transfers_calleeAccess (haccess : Token.access? c.pastBlanks.rest = some access)
    (hmember : Transfers span? depth (.member before access)
      (c.pastBlanks.skip access.text.length) between c₁)
    (hcallee : Transfers span? depth (.calleeLinks between) c₁ callee c') :
    Transfers span? depth (.calleeLinks before) c callee c' := by
  obtain ⟨m₁, hm₁, h₁⟩ := hmember
  obtain ⟨m₂, hm₂, h₂⟩ := hcallee
  refine ⟨_, (hm₁.append hm₂).access haccess, ?_⟩
  rintro x rfl
  constructor
  · intro d d' hd hstand hfollows
    exact ((hm₁.append hm₂).enterAccess hstand haccess hd hfollows.beside).2.1
  · rintro d d' q values hd hstand hfollows ⟨⟩
    rename_i before' hbefore
    obtain ⟨haccess', -, hd, hstand₁⟩ :=
      (hm₁.append hm₂).enterAccess hstand haccess hd hfollows.beside
    obtain ⟨d₁, hd₁, hd, hstand₂⟩ := hm₁.split hstand₁ hd
    have hfollows₁ : Follows false c₁.rest d₁.rest := (h₂ x rfl).enters hd hstand₂ hfollows
    obtain ⟨between', hbetween', hsame⟩ :=
      (h₁ x rfl).derives hd₁ hstand₁ hfollows₁ (.member access hbefore)
    obtain ⟨callee', hcallee', hsame'⟩ :=
      (h₂ x rfl).derives hd hstand₂ hfollows (.calleeLinks hsame)
    exact ⟨callee', .calleeAccess haccess' hbetween' hcallee', hsame'⟩

/-- Arguments end the callee. -/
theorem transfers_calleeArguments (hopen : c.pastBlanks.rest.head? = some '(')
    (h : Transfers span? depth .arguments (c.pastBlanks.skip 1) es c') :
    Transfers span? depth (.calleeLinks before) c ⟨before, es, some c'.position⟩ c' := by
  obtain ⟨m, hm, h⟩ := h
  refine ⟨_, hm.char hopen, ?_⟩
  rintro x rfl
  constructor
  · rintro d d' hd hstand -
    obtain ⟨hblanks, hopen', -⟩ := Covers.enterChar hstand hopen hd
    exact hblanks.follows (follows_char _ hopen hopen' (by decide))
  · rintro d d' q values hd hstand hfollows ⟨⟩
    rename_i before' hbefore
    obtain ⟨-, hopen', hd, hstand₁⟩ := Covers.enterChar hstand hopen hd
    obtain ⟨es', hes', hsame⟩ := (h x rfl).derives hd hstand₁ hfollows .arguments
    exact ⟨_, .calleeArguments (access?_openParen hopen') hopen' hes',
      same_calledWith hbefore hsame (hstand₁.passes hm.passes hm.isAt hd)⟩

/-! ## Whatever is read -/

/-- The nodes that keep a word that they update or call. -/
theorem Transfer.same_of_bare {x : Transfer} {e e' : Expr}
    (h : x.left.tree e = e.relocated x.offset) (hsame : x.bare.left.Same x.bare.right e e') :
    x.left.Same x.right e e' :=
  Eq.trans h hsame

/-- Whatever is read is read in other texts, too, with the word at the span replaced. -/
theorem Derives.transfers {p : Production} {v : p.Yield} (h : Derives depth p c v c')
    (span? : Option Span) : Transfers span? depth p c v c' := by
  induction h generalizing span? with
  | ungrouped _ ih => exact transfers_ungrouped (ih span?)
  | grouped hopen _ hclose hne ih => exact transfers_grouped hopen (ih span?) hclose hne
  | lastExpression _ hfirst hcomma ih => exact transfers_lastExpression (ih span?) hfirst hcomma
  | moreExpressions _ hcomma _ ihe ihes =>
    exact transfers_moreExpressions (ihe span?) hcomma (ihes span?)
  | expression _ ih => exact transfers_expression (ih span?)
  | unconditional _ hquestion ih => exact transfers_unconditional (ih span?) hquestion
  | conditional _ hquestion _ hcolon _ ihtest ihconsequent ihalternate =>
    exact transfers_conditional (ihtest span?) hquestion (ihconsequent span?) hcolon
      (ihalternate span?)
  | operands _ ih => exact transfers_operands (ih span?)
  | noOperand _ ih => exact transfers_noOperand (ih span?)
  | climb _ _ ihleft ih => exact transfers_climb (ihleft span?) (ih span?)
  | noInfix hleast => exact transfers_noInfix hleast
  | joined hop hleast hbare _ hallows _ ihright ih =>
    exact transfers_joined hop hleast hbare (ihright span?) hallows (ih span?)
  | unary _ ih => exact transfers_unary (ih span?)
  | unaryOperator hop _ ih => exact transfers_unaryOperator hop (ih span?)
  | noUnaryOperator hop _ ih => exact transfers_noUnaryOperator hop (ih span?)
  | noToken _ ih => exact transfers_noToken (ih span?)
  | token _ _ hop ihprimary ihrun => exact transfers_token (ihprimary span?) (ihrun span?) hop
  | @trailingUpdate _ _ _ _ _ run _ _ _ hop hplace ihprimary ihrun =>
    -- An identifier that is updated keeps its name in the view, so it is read as if there were no
    -- hole: only how the update looks is different.
    by_cases hhole : IsHole span? run.finish
    · refine transfers_of_none (transfers_trailingUpdate (ihprimary none) (ihrun none) hop hplace
        (not_isHole_none _)) ?_
      rintro x rfl q values ⟨⟩
      refine ⟨_, .token, fun w hsame? => ?_⟩
      obtain ⟨e', rfl, hsame⟩ := View.Same.exists_some hsame?
      exact (x.same_of_bare (tree_update_isAt _ _ _ _ (x.exists_isAt hhole)) hsame).some
    · exact transfers_trailingUpdate (ihprimary span?) (ihrun span?) hop hplace hhole
  | noLink haccess hparen => exact transfers_noLink haccess hparen
  | linkAccess haccess _ _ ihmember ihlinks =>
    exact transfers_linkAccess haccess (ihmember span?) (ihlinks span?)
  | linkCall _ hopen _ _ ihcall ihlinks =>
    exact transfers_linkCall hopen (ihcall span?) (ihlinks span?)
  | member _ ih => exact transfers_member (ih span?)
  | computedLast hcomputed _ hclose haccess ih =>
    exact transfers_computedLast hcomputed (ih span?) hclose haccess
  | computedNext hcomputed _ hclose hnext _ ihproperty ih =>
    exact transfers_computedNext hcomputed (ihproperty span?) hclose hnext (ih span?)
  | namedLast hcomputed _ hproperty haccess =>
    exact transfers_namedLast hcomputed hproperty haccess
  | namedNext hcomputed _ hproperty hnext _ ih =>
    exact transfers_namedNext hcomputed hproperty hnext (ih span?)
  | accessedCall hcomputed hopen _ ih => exact transfers_accessedCall hcomputed hopen (ih span?)
  | callLast _ haccess ih => exact transfers_callLast (ih span?) haccess
  | callNext _ hnext _ iharguments ihmember =>
    exact transfers_callNext (iharguments span?) hnext (ihmember span?)
  | arguments _ hclose ih => exact transfers_arguments (ih span?) hclose
  | lastArgument _ hcomma ih => exact transfers_lastArgument (ih span?) hcomma
  | moreArguments _ hcomma _ ihe ihes =>
    exact transfers_moreArguments (ihe span?) hcomma (ihes span?)
  | primary _ ih => exact transfers_primary (ih span?)
  | group hopen _ ih => exact transfers_group hopen (ih span?)
  | leadingUpdate hop _ ih => exact transfers_leadingUpdate hop (ih span?)
  | new hword _ ih => exact transfers_new hword (ih span?)
  | word hword hne hnew => exact transfers_word hword hne hnew
  | number hstart hnumber => exact transfers_number hstart hnumber
  | arrayLiteral hopen _ ih => exact transfers_arrayLiteral hopen (ih span?)
  | noPrimary hparen hupdate hword hnumber hbracket =>
    exact transfers_noPrimary hparen hupdate hword hnumber hbracket
  | @construct _ _ _ _ _ _ callee _ _ hoptional hchain ihprimary ihcallee =>
    -- So does one that `new` calls.
    by_cases hhole : IsHole span? callee.links.node
    · refine transfers_of_none (transfers_construct (ihprimary none) (ihcallee none) hoptional
        hchain (not_isHole_none _)) ?_
      rintro x rfl q values ⟨⟩
      rename_i start' hstart
      exact ⟨_, .construct hstart,
        fun w hsame => x.same_of_bare (tree_new_isAt _ _ _ (x.exists_isAt hhole)) hsame⟩
    · exact transfers_construct (ihprimary span?) (ihcallee span?) hoptional hchain hhole
  | noCalleeLink haccess hparen => exact transfers_noCalleeLink haccess hparen
  | calleeAccess haccess _ _ ihmember ihcallee =>
    exact transfers_calleeAccess haccess (ihmember span?) (ihcallee span?)
  | calleeArguments _ hopen _ ih => exact transfers_calleeArguments hopen (ih span?)
  | @updated _ _ _ _ _ argument _ hplace ih =>
    by_cases hhole : IsHole span? argument
    · refine transfers_of_none (transfers_updated (ih none) hplace (not_isHole_none _)) ?_
      rintro x rfl q values ⟨⟩
      rename_i start' hstart
      exact ⟨_, .updated _ hstart,
        fun w hsame => x.same_of_bare (tree_update_isAt _ _ _ _ (x.exists_isAt hhole)) hsame⟩
    · exact transfers_updated (ih span?) hplace hhole
  | array _ hclose ih => exact transfers_array (ih span?) hclose
  | lastElement _ hcomma ih => exact transfers_lastElement (ih span?) hcomma
  | moreElements _ hcomma _ ihe ihes =>
    exact transfers_moreElements (ihe span?) hcomma (ihes span?)

end Grammar

end Estree
