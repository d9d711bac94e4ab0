import Estree.Proofs.Grammar.Neighbours
import Estree.Proofs.Grammar.Parser

/-!
# Where nothing begins

`Parser.unfold_absent`: an operand, an expression or a token is found to be absent exactly where the
text behind the blanks begins none, and then the blanks have been passed and nothing else.

A production that yields nothing has opened only productions that yield nothing where they stand, so
each one is told from the next one that it opens, down to the primary expression
(`Grammar.derives_primaryForm_none_iff`), and nothing is said about what may follow. A group is no
way to yield nothing: it has an expression or ends in a fault.

On the way up each production only adds what it begins with itself: a token nothing, an operand the
unary operators, and an expression nothing again. Of the signs, `+` and `-` begin an operand, and
only the doubled ones begin a token (`BeginsToken`).

For derivations the equivalence has to be about some number of levels. A parser has a limit, and may
end for want of levels before it can tell that nothing begins; but then it does not find the
production absent. So `AbsentUnless` is about what a parser finds, and `unfold_eq_ok_iff` leads from
there to derivations: a parser with enough fuel yields a value exactly if it can be derived with the
levels that are left to it.
-/

namespace Estree

/-! ## Beginnings -/

namespace Text

variable {symbols text : List Char}

/-- Whether a text begins with one of these symbols, an identifier or a number. -/
def Begins (symbols : List Char) : List Char → Prop
  | [] => False
  | x :: rest =>
    x ∈ symbols ∨ isIdentifierStart x = true ∨ x.isDigit = true ∨
      x = '.' ∧ ∃ d ∈ rest.head?, d.isDigit = true

instance : DecidablePred (Begins symbols)
  | [] => .isFalse id
  | _ :: _ => inferInstanceAs (Decidable (_ ∨ _ ∨ _ ∨ _))

/-- Whether a token may begin here. Of the signs only the doubled ones begin a token. -/
def BeginsToken (text : List Char) : Prop :=
  Begins ['(', '['] text ∨ "++".toList <+: text ∨ "--".toList <+: text

instance : DecidablePred BeginsToken :=
  fun _ => inferInstanceAs (Decidable (_ ∨ _ ∨ _))

/-- What a text may begin with, one by one. -/
theorem begins_iff : Begins symbols text ↔ (∃ x ∈ symbols, text.head? = some x) ∨
    leadingWord text ≠ [] ∨ Pattern.numberStart.isAtStart text = true := by
  cases text with
  | nil => simp [Begins, leadingWord, Pattern.numberStart_isAtStart]
  | cons x rest =>
    have hsymbol : (∃ y ∈ symbols, (x :: rest).head? = some y) ↔ x ∈ symbols := by simp
    have hword : leadingWord (x :: rest) ≠ [] ↔ isIdentifierStart x = true := by
      rw [leadingWord_ne_nil_iff]
      simp
    have hnumber : Pattern.numberStart.isAtStart (x :: rest) = true ↔
        x.isDigit = true ∨ x = '.' ∧ ∃ d ∈ rest.head?, d.isDigit = true := by
      rw [Pattern.numberStart_isAtStart]
      cases rest <;> simp [and_assoc]
    rw [Begins, hsymbol, hword, hnumber]

/-- With more symbols more texts begin so. -/
theorem begins_mono {more : List Char} (h : Begins symbols text) (hmore : symbols ⊆ more) :
    Begins more text := by
  rw [begins_iff] at h ⊢
  exact h.imp_left fun ⟨x, hx, hhead⟩ => ⟨x, hmore hx, hhead⟩

/-- One more symbol. -/
theorem begins_cons {x : Char} :
    Begins (x :: symbols) text ↔ text.head? = some x ∨ Begins symbols text := by
  rw [begins_iff, begins_iff]
  simp [or_assoc]

end Text

namespace Token

open Text

variable {text : List Char}

/-- There is no update exactly if neither of both is a prefix. -/
theorem updateOperator?_eq_none_iff :
    updateOperator? text = none ↔ ¬"++".toList <+: text ∧ ¬"--".toList <+: text := by
  constructor
  · refine fun h => ⟨?_, ?_⟩
    · rintro ⟨rest, rfl⟩
      cases (updateOperator?_text .increment).symm.trans h
    · rintro ⟨rest, rfl⟩
      cases (updateOperator?_text .decrement).symm.trans h
  · rintro ⟨hplus, hminus⟩
    cases hop : updateOperator? text with
    | none => rfl
    | some operator =>
      obtain ⟨rest, rfl⟩ := updateOperator?_eq_some hop
      cases operator with
      | increment => exact absurd ⟨rest, rfl⟩ hplus
      | decrement => exact absurd ⟨rest, rfl⟩ hminus

/-- A sign that is not doubled is a unary operator. -/
theorem unaryOperator?_ne_none {x : Char} {rest : List Char} (hx : x ∈ unarySymbols)
    (h : updateOperator? (x :: rest) = none) : unaryOperator? (x :: rest) ≠ none := by
  rw [unaryOperator?, isAtStart_updateOperator, h, if_neg (by decide)]
  simp only [unarySymbols, List.mem_cons, List.not_mem_nil, or_false] at hx
  rcases hx with rfl | rfl | rfl | rfl <;> exact Option.some_ne_none _

/-- Where neither a token nor a unary operator begins, no operand does. -/
theorem not_begins_iff : ¬Begins ['(', '[', '!', '~', '+', '-'] text ↔
    unaryOperator? text = none ∧ ¬BeginsToken text := by
  constructor
  · intro h
    have hsymbols : ∀ x ∈ text.head?, isIdentifierStart x = false ∧ x ∉ unarySymbols := by
      intro x hx
      rw [begins_iff, not_or, not_or, leadingWord_ne_nil_iff] at h
      exact ⟨Bool.eq_false_iff.2 fun hstart => h.2.1 ⟨x, hx, hstart⟩,
        fun hmem => h.1 ⟨x, by simp_all [unarySymbols], hx⟩⟩
    refine ⟨unaryOperator?_eq_none hsymbols, ?_⟩
    rintro (hbegins | ⟨rest, rfl⟩ | ⟨rest, rfl⟩)
    · exact h (begins_mono hbegins (by decide))
    · exact (hsymbols _ rfl).2 (by decide)
    · exact (hsymbols _ rfl).2 (by decide)
  · rintro ⟨hunary, htoken⟩ hbegins
    have hupdate : updateOperator? text = none :=
      updateOperator?_eq_none_iff.2 (not_or.1 (not_or.1 htoken).2)
    rcases begins_iff.1 hbegins with ⟨x, hx, hhead⟩ | hother
    · obtain ⟨rest, rfl⟩ := List.head?_eq_some_iff.1 hhead
      by_cases hopens : x ∈ ['(', '[']
      · exact htoken (Or.inl (Or.inl hopens))
      · exact unaryOperator?_ne_none (by simp_all [unarySymbols]) hupdate hunary
    · exact htoken (Or.inl (begins_iff.2 (Or.inr hother)))

end Token

/-! ## Productions that yield nothing -/

namespace Grammar

open Text Token

variable {depth least : Nat} {c c' : Cursor}

/-- A group never yields nothing. -/
theorem not_derives_grouped_none : ¬Derives depth (.sequence true) c none c' := by
  intro h
  generalize hv : (none : Option Expr) = v at h
  cases h with
  | grouped _ _ _ hne => exact sequenceNode?_ne_none hne hv.symm

/-- A primary expression is absent exactly where none begins. -/
theorem derives_primaryForm_none_iff :
    Derives depth .primaryForm c none c' ↔ ¬BeginsToken c.rest ∧ c' = c := by
  have hbegins : ¬BeginsToken c.rest ↔ c.rest.head? ≠ some '(' ∧ updateOperator? c.rest = none ∧
      leadingWord c.rest = [] ∧ Pattern.numberStart.isAtStart c.rest = false ∧
      c.rest.head? ≠ some '[' := by
    rw [BeginsToken, begins_iff, updateOperator?_eq_none_iff]
    simp only [List.mem_cons, List.not_mem_nil, or_false, exists_eq_or_imp, exists_eq_left, not_or,
      ne_eq, not_not, Bool.not_eq_true]
    exact ⟨fun ⟨⟨⟨hparen, hbracket⟩, hword, hnumber⟩, hupdate⟩ =>
        ⟨hparen, hupdate, hword, hnumber, hbracket⟩,
      fun ⟨hparen, hupdate, hword, hnumber, hbracket⟩ =>
        ⟨⟨⟨hparen, hbracket⟩, hword, hnumber⟩, hupdate⟩⟩
  rw [hbegins]
  constructor
  · intro h
    cases h with
    | group _ hgroup => exact absurd hgroup not_derives_grouped_none
    | noPrimary hparen hupdate hword hnumber hbracket =>
      exact ⟨⟨hparen, hupdate, hword, hnumber, hbracket⟩, rfl⟩
  · rintro ⟨⟨hparen, hupdate, hword, hnumber, hbracket⟩, rfl⟩
    exact .noPrimary hparen hupdate hword hnumber hbracket

/-- So is a token, behind blanks. -/
theorem derives_token_none_iff : Derives (depth + 1) .token c none c' ↔
    ¬BeginsToken c.pastBlanks.rest ∧ c' = c.pastBlanks := by
  rw [← derives_primaryForm_none_iff]
  constructor
  · intro h
    cases h with
    | noToken hprimary =>
      cases hprimary with
      | primary hform => exact hform
  · exact fun h => .noToken (.primary h)

/-- So is an operand, which may begin with a unary operator. -/
theorem derives_unary_none_iff : Derives (depth + 2) .unary c none c' ↔
    ¬Begins ['(', '[', '!', '~', '+', '-'] c.pastBlanks.rest ∧ c' = c.pastBlanks := by
  have htoken : Derives (depth + 1) .token c.pastBlanks none c' ↔
      ¬BeginsToken c.pastBlanks.rest ∧ c' = c.pastBlanks := by
    rw [derives_token_none_iff, c.pastBlanks_pastBlanks]
  rw [not_begins_iff, and_assoc, ← htoken]
  constructor
  · intro h
    cases h with
    | unary hform =>
      cases hform with
      | noUnaryOperator hop htoken => exact ⟨hop, htoken⟩
  · exact fun ⟨hop, htoken⟩ => .unary (.noUnaryOperator hop htoken)

/-- So are operands, whatever operators they ask for. -/
theorem derives_operands_none_iff : Derives (depth + 3) (.operands least) c none c' ↔
    ¬Begins ['(', '[', '!', '~', '+', '-'] c.pastBlanks.rest ∧ c' = c.pastBlanks := by
  have hunary : Derives (depth + 2) .unary c.pastBlanks none c' ↔
      ¬Begins ['(', '[', '!', '~', '+', '-'] c.pastBlanks.rest ∧ c' = c.pastBlanks := by
    rw [derives_unary_none_iff, c.pastBlanks_pastBlanks]
  rw [← hunary]
  constructor
  · intro h
    cases h with
    | operands hclimb =>
      cases hclimb with
      | noOperand hunary => exact hunary
  · exact fun h => .operands (.noOperand h)

/-- A question mark without a test is a fault, so it does not count as nothing either. -/
theorem derives_expression_none_iff : Derives (depth + 4) .expression c none c' ↔
    ¬Begins ['?', '(', '[', '!', '~', '+', '-'] c.pastBlanks.rest ∧ c' = c.pastBlanks := by
  rw [begins_cons, not_or]
  constructor
  · intro h
    cases h with
    | expression hconditional =>
      generalize hv : (none : Option Expr) = v at hconditional
      cases hconditional with
      | @unconditional _ _ c₁ operands? hoperands hquestion =>
        obtain rfl := Option.map_eq_none_iff.1 hv.symm
        obtain ⟨hbegins, rfl⟩ := derives_operands_none_iff.1 hoperands
        rw [c.pastBlanks_pastBlanks] at hquestion ⊢
        exact ⟨⟨hquestion, hbegins⟩, rfl⟩
      | conditional => cases hv
  · rintro ⟨⟨hquestion, hbegins⟩, rfl⟩
    have hoperands : Derives (depth + 3) (.operands 1) c none c.pastBlanks :=
      derives_operands_none_iff.2 ⟨hbegins, rfl⟩
    have hconditional := Derives.unconditional hoperands
      (by rwa [c.pastBlanks_pastBlanks])
    rw [c.pastBlanks_pastBlanks] at hconditional
    exact .expression hconditional

/-- With fuel enough, exactly what can be derived is read. -/
theorem unfold_eq_ok_iff {fuel : Nat} {p : Production} {v : p.Yield}
    (hfuel : 16 * c.rest.length + rank p < fuel) :
    unfold fuel depth p c = .ok v c' ↔ Derives depth p c v c' :=
  ⟨fun h => unfold_isSound fuel h, fun h => h.unfold_eq_ok ⟨hfuel, Or.inl (Nat.le_refl _)⟩⟩

end Grammar

/-- What looks the same is absent both, or neither. -/
theorem View.Same.eq_none_iff {x y : View} {α : Type} [Viewed α] {v? w? : Option α}
    (h : x.Same y v? w?) : v? = none ↔ w? = none := by
  rcases h.eq_none_or with ⟨rfl, rfl⟩ | ⟨v, w, rfl, rfl, -⟩
  · exact Iff.rfl
  · exact ⟨nofun, nofun⟩

/-! ## Parsers -/

namespace Parser

open Text

variable {source : List Char} {maxDepth fuel left : Nat} {parser next : Parser} {p : Production}
  {absent : p.Yield}

/-- A parser finds nothing where the reading that is told the levels left finds nothing. -/
theorem unfold_eq_ok_iff {values : p.Yield → p.Yield → Prop}
    (hlike : Production.Like ⟨id, none⟩ ⟨(0 + ·), none⟩ p p values)
    (hvalues : ∀ v w, values v w → (v = absent ↔ w = absent)) (hin : parser.cursor.IsIn source)
    (hlevels : parser.depth + left = maxDepth) :
    unfold maxDepth fuel p parser = .ok absent next ↔
      Grammar.unfold fuel left p parser.cursor = .ok absent next.cursor ∧
        next.depth = parser.depth := by
  have hresults : (inStep source 0 parser.depth).Results values (unfold maxDepth fuel p parser)
      (Grammar.unfold fuel left p parser.cursor) :=
    results_unfold fuel hlevels hlike ⟨⟨rfl, (Nat.zero_add _).symm, hin⟩, rfl⟩
  obtain ⟨v, w, s, d, hrun, hrun', hsame, ⟨hrest, hposition, -⟩, hdepth⟩ |
    ⟨fault, fault', s, d, hrun, hrun', -⟩ := hresults.ok_or_error
  · obtain ⟨⟨position, rest⟩, depth⟩ := s
    obtain rfl : rest = d.rest := hrest
    obtain rfl : position = d.position := hposition.trans (Nat.zero_add _)
    obtain rfl : depth = parser.depth := hdepth
    rw [hrun, hrun']
    constructor
    · intro h
      cases h
      exact ⟨by rw [(hvalues _ _ hsame).1 rfl], rfl⟩
    · rintro ⟨h, hnext⟩
      cases h
      rw [(hvalues _ _ hsame).2 rfl, ← hnext]
  · rw [hrun, hrun']
    exact ⟨nofun, fun h => nomatch h.1⟩

/-- The parser finds a production absent exactly where the text behind the blanks does not begin in
this way, and then it has passed the blanks and nothing else. -/
def AbsentUnless (begins : List Char → Prop) (maxDepth fuel : Nat) (p : Production)
    (absent : p.Yield) (parser : Parser) : Prop :=
  ∀ next, unfold maxDepth fuel p parser = .ok absent next ↔
    ¬begins parser.cursor.pastBlanks.rest ∧ next = ⟨parser.cursor.pastBlanks, parser.depth⟩

theorem absentUnless_of_derives {begins : List Char → Prop} {values : p.Yield → p.Yield → Prop}
    (hlike : Production.Like ⟨id, none⟩ ⟨(0 + ·), none⟩ p p values)
    (hvalues : ∀ v w, values v w → (v = absent ↔ w = absent)) (hin : parser.cursor.IsIn source)
    (hlevels : parser.depth + left = maxDepth) (hfuel : Grammar.fuel source.length ≤ fuel)
    (hderives : ∀ c', Grammar.Derives left p parser.cursor absent c' ↔
      ¬begins parser.cursor.pastBlanks.rest ∧ c' = parser.cursor.pastBlanks) :
    AbsentUnless begins maxDepth fuel p absent parser := by
  intro next
  have henough : 16 * parser.cursor.rest.length + Grammar.rank p < fuel := by
    have hrank := Grammar.rank_le p
    obtain ⟨before, rfl, -⟩ := hin
    simp only [Grammar.fuel, List.length_append] at hfuel
    omega
  rw [unfold_eq_ok_iff hlike hvalues hin hlevels, Grammar.unfold_eq_ok_iff henough, hderives,
    and_assoc]
  refine and_congr_right fun _ => ?_
  constructor
  · rintro ⟨hcursor, hdepth⟩
    rw [← hcursor, ← hdepth]
  · rintro rfl
    exact ⟨rfl, rfl⟩

/-- Wherever a parser stands with no level open and enough of them left, it finds an operand, an
expression or a token absent exactly where the text behind the blanks begins none, and has then
passed the blanks and nothing else. A group is never found absent. -/
theorem unfold_absent {source : String} {parser : Parser} {maxDepth fuel : Nat}
    (hin : parser.cursor.IsIn source.toList) (hdepth : parser.depth = 0)
    (hlevels : 4 * (utf8Size source.toList + 1) ≤ maxDepth)
    (hfuel : Grammar.fuel source.toList.length ≤ fuel) :
    AbsentUnless (Begins ['(', '[', '!', '~', '+', '-']) maxDepth fuel .unary none parser ∧
      (∀ least, AbsentUnless (Begins ['(', '[', '!', '~', '+', '-']) maxDepth fuel
        (.operands least) none parser) ∧
      AbsentUnless (Begins ['?', '(', '[', '!', '~', '+', '-']) maxDepth fuel .expression none
        parser ∧
      AbsentUnless BeginsToken maxDepth fuel .token none parser ∧
      ∀ next, unfold maxDepth fuel (.sequence true) parser ≠ .ok none next := by
  obtain ⟨below, rfl⟩ := Nat.exists_eq_add_of_le' (show 4 ≤ maxDepth by omega)
  have hleft : parser.depth + (below + 4) = below + 4 := by rw [hdepth, Nat.zero_add]
  refine ⟨?_, fun least => ?_, ?_, ?_, fun next => ?_⟩
  · exact absentUnless_of_derives .unary (fun _ _ => View.Same.eq_none_iff) hin hleft hfuel
      fun _ => Grammar.derives_unary_none_iff
  · exact absentUnless_of_derives (.operands least) (fun _ _ => View.Same.eq_none_iff) hin hleft
      hfuel fun _ => Grammar.derives_operands_none_iff
  · exact absentUnless_of_derives .expression (fun _ _ => View.Same.eq_none_iff) hin hleft hfuel
      fun _ => Grammar.derives_expression_none_iff
  · exact absentUnless_of_derives .token (fun _ _ => View.Same.eq_none_iff) hin hleft hfuel
      fun _ => Grammar.derives_token_none_iff
  · rw [Ne, unfold_eq_ok_iff (.sequence true) (fun _ _ => View.Same.eq_none_iff) hin hleft]
    exact fun h => Grammar.not_derives_grouped_none (Grammar.unfold_isSound fuel h.1)

/-- Behind the comma there are a line end and a blank, and then the list is closed. At the
parenthesis that opens it a token begins, which here is a group that a comma makes a fault. -/
theorem unfold_absent_arguments :
    let slot : Parser := ⟨⟨5, "\n )".toList⟩, 0⟩
    let group : Parser := ⟨⟨1, "(é,\n )".toList⟩, 0⟩
    (slot.cursor.IsIn "f(é,\n )".toList ∧ group.cursor.IsIn "f(é,\n )".toList ∧
      slot.depth = 0 ∧ group.depth = 0 ∧ 4 * (utf8Size "f(é,\n )".toList + 1) ≤ 36 ∧
      Grammar.fuel "f(é,\n )".toList.length ≤ 256) ∧
    unfold 36 256 .expression slot = .ok none ⟨⟨7, [')']⟩, 0⟩ ∧
    unfold 36 256 .token slot = .ok none ⟨⟨7, [')']⟩, 0⟩ ∧
    (∀ next, unfold 36 256 .token group ≠ .ok none next) ∧
    ∀ next, unfold 36 256 (.sequence true) group ≠ .ok none next := by
  intro slot group
  have hslot : slot.cursor.IsIn "f(é,\n )".toList := ⟨"f(é,".toList, rfl, by decide⟩
  have hgroup : group.cursor.IsIn "f(é,\n )".toList := ⟨['f'], rfl, by decide⟩
  have hlevels : 4 * (utf8Size "f(é,\n )".toList + 1) ≤ 36 := by decide
  have hfuel : Grammar.fuel "f(é,\n )".toList.length ≤ 256 := by decide
  obtain ⟨-, -, hexpression, htoken, -⟩ := unfold_absent hslot rfl hlevels hfuel
  obtain ⟨-, -, -, hbegun, hgrouped⟩ := unfold_absent hgroup rfl hlevels hfuel
  refine ⟨⟨hslot, hgroup, rfl, rfl, hlevels, hfuel⟩, (hexpression _).2 ⟨by decide, by decide⟩,
    (htoken _).2 ⟨by decide, by decide⟩, fun next h => ?_, hgrouped⟩
  exact ((hbegun next).1 h).1 (by decide)

end Parser

end Estree
