import Estree.Proofs.Runs.Link
import Estree.Proofs.Transfer.Alone

/-!
# Runs as folds

A name or a group with any member accesses and calls after it is one left fold, whatever their
number and order: each link makes its node of the tree before it. `Run.spine` is this fold, and
`Run.tree` puts one chain around it if some link is optional.

> `parseWithin_run`: the text of any base and any links is read as the tree of the run.

The grammar reads such a run in pieces of several links, since it looks for calls only where no
access goes on. Link by link it goes on in the same way (`RunsTo.links`), so the induction is over
the list of links and each step is that of one link, whatever its kind.

What is left are the two ends. The base is a name that is an operand, or a group, which is read with
a sequence reaching over its parentheses (`Base.runsTo`), and behind the last link the text ends
(`RunsTo.readsToEnd`).
-/

namespace Estree

open Text Grammar

/-! ## Texts -/

/-- What a run begins with: a name that is an operand, or a group. -/
inductive Base where
  | name (word : String) (isName : IsName word)
    (isFree : word ∉ ["new", "this", "true", "false", "null", "typeof", "void", "delete"])
  | group (inner : Accepted)

namespace Base

def text : Base → List Char
  | name word _ _ => word.toList
  | group inner => '(' :: (inner.source.toList ++ [')'])

/-- The tree of a text that is only this. A sequence reaches over the parentheses. -/
def tree : Base → Expr
  | name word _ _ => .identifier ⟨0, utf8Size word.toList⟩ word
  | group inner => (inner.tree.movedBy 1).enclosed ⟨0, utf8Size (text (group inner))⟩

end Base

namespace RunLink

variable {link : RunLink} {links : List RunLink} {offset : Nat} {before : Expr}

/-- The texts one after the other. -/
def texts (links : List RunLink) : List Char := links.flatMap text

/-- An offset and the tree before it, one link further on. -/
def step (before : Nat × Expr) (link : RunLink) : Nat × Expr :=
  (before.1 + utf8Size link.text, link.node before.1 before.2)

/-- The tree that links make of what is before them, if the first one begins at an offset. -/
def fold (offset : Nat) (before : Expr) (links : List RunLink) : Expr :=
  (links.foldl step (offset, before)).2

/-- The first link makes its node, and the others go on behind it. -/
theorem fold_cons : fold offset before (link :: links) =
    fold (offset + utf8Size link.text) (link.node offset before) links := rfl

/-- No text of links goes on with a name before it. -/
theorem head?_texts {rest : List Char} (hrest : ∀ x ∈ rest.head?, isIdentifierPart x = false) :
    ∀ x ∈ (texts links ++ rest).head?, isIdentifierPart x = false := by
  cases links with
  | nil => exact hrest
  | cons link links =>
    rw [texts, List.flatMap_cons, List.append_assoc]
    exact link.head?_text _

end RunLink

/-- A base and the links after it. -/
structure Run where
  base : Base
  links : List RunLink

namespace Run

def text (run : Run) : List Char := run.base.text ++ RunLink.texts run.links

def source (run : Run) : String := String.ofList run.text

/-- The nodes of the links, one around the other. -/
def spine (run : Run) : Expr := RunLink.fold (utf8Size run.base.text) run.base.tree run.links

/-- The tree of the run as a whole. -/
def tree (run : Run) : Expr :=
  if run.links.any RunLink.optional then .chain run.spine.span run.spine else run.spine

end Run

/-! ## Reading -/

section Reading

variable {depth : Nat} {c c' d d' : Cursor} {run : Links} {hasCall : Bool}

/-- A run goes on past any links. -/
theorem Grammar.RunsTo.links (h : RunsTo depth c run hasCall d) (links : List RunLink)
    (hd : d.Passes (RunLink.texts links) d')
    (hrest : ∀ x ∈ d'.rest.head?, isIdentifierPart x = false)
    (hdepth : 4 * d.rest.length + 4 ≤ depth) :
    RunsTo depth c
      ⟨RunLink.fold d.position run.node links, run.hasOptional || links.any RunLink.optional⟩
      (hasCall || links.any RunLink.isCall) d' := by
  induction links generalizing run hasCall d with
  | nil =>
    obtain rfl := hd.eq_of_nil
    rw [List.any_nil, Bool.or_false, List.any_nil, Bool.or_false]
    exact h
  | cons link links ih =>
    obtain ⟨hlink, hlinks⟩ := hd.split
    have hnext := h.link link hlink
      (by rw [hlinks.rest_eq]; exact RunLink.head?_texts hrest) hdepth
    have hall := ih hnext hlinks (levels_passes hlink hdepth)
    rw [hlink.position_eq, Bool.or_assoc, Bool.or_assoc] at hall
    exact hall

/-- A run up to the end of the text is all that is read, if no unary operator stands before it. -/
theorem Grammar.RunsTo.readsToEnd (h : RunsTo depth c run hasCall d) (hend : d.rest = [])
    (hpast : c.pastBlanks = c) (hoperator : Token.unaryOperator? c.rest = none) :
    ReadsToEnd c run.finish := by
  have hatEnd : d.AtEnd := .of_rest hend
  rw [← hpast] at h hoperator
  exact (readsToEnd_token (h.token hatEnd.hasNoLink.access hatEnd.hasNoLink.paren
    hatEnd.updateOperator?_eq_none) hatEnd.skipBlanks hoperator).readsToEnd

/-- A word that is not reserved is a primary expression. -/
theorem derives_identifier {word : String} (hname : IsName word)
    (hfree : word ∉ Expr.reservedWords) (hc : c.Passes word.toList c')
    (hrest : ∀ x ∈ c'.rest.head?, isIdentifierPart x = false)
    (hdepth : 4 * c.rest.length + 4 ≤ depth) :
    Derives depth .primary c
      (some (.identifier ⟨c.position, c.position + utf8Size word.toList⟩ word)) c' := by
  obtain ⟨below, rfl⟩ : ∃ below, depth = below + 1 := ⟨depth - 1, by omega⟩
  have hnew : word ≠ "new" := by
    rintro rfl
    exact hfree (by decide)
  have hreserved : ∀ span, (Expr.identifier span word).isReserved = false := fun _ =>
    Bool.eq_false_iff.2 fun h => hfree (List.contains_iff_mem.1 h)
  rw [← Leaf.ofWord_eq_identifier (hreserved _)]
  exact Source.derives_word hname hnew hc hrest

/-- An accepted text in parentheses is a primary expression. -/
theorem Accepted.derives_group (inner : Accepted) {text : List Char} (hin : c.IsIn text)
    (hc : c.Passes ('(' :: (inner.source.toList ++ [')'])) c')
    (hdepth : 4 * c.rest.length + 4 ≤ depth) :
    Derives depth .primary c
      (some ((inner.tree.movedBy (c.position + 1)).enclosed ⟨c.position, c'.position⟩)) c' := by
  obtain ⟨hopen, hinner⟩ := hc.split_cons
  obtain ⟨hinner, hclose⟩ := hinner.split
  generalize (c.skip 1).skip inner.source.toList.length = d at hinner hclose
  have hhead : d.rest.head? = some ')' := hclose.head?_rest
  have hlength : c.rest.length = (c.skip 1).rest.length + 1 := by
    rw [hopen.rest_eq]
    rfl
  obtain ⟨below, rfl⟩ : ∃ below, depth = below + 1 := ⟨depth - 1, by omega⟩
  obtain ⟨es, hes, hnode⟩ := inner.reads_expressions hinner (by simp [hhead, closers])
    (show 4 * (c.skip 1).rest.length + 4 ≤ below by omega)
  have hnone : ∀ e ∈ es, e.isBareSequence = false := hes.notBare (hin.skip 1)
  have hne : es ≠ [] := by
    rintro rfl
    cases hnode
  -- The parenthesis stands at the cursor, so no blanks are passed.
  have hpast : c.pastBlanks = c := Cursor.pastBlanks_of_cons hopen.rest_eq (by decide)
  have hgrouped := Derives.grouped (hpast.symm ▸ hopen.head?_rest) (hpast.symm ▸ hes) hhead hne
  rw [sequenceNode?_enclosed _ hnone hnode, hpast, ← show c' = d.skip 1 from hclose.eq_skip,
    hopen.position_eq] at hgrouped
  exact .primary (.group hopen.head?_rest hgrouped)

/-- At the start of a text the base of a run is read as its tree. -/
theorem Base.runsTo (base : Base) {text : List Char} (hin : c.IsIn text)
    (hc : c.Passes base.text c') (hstart : c.position = 0)
    (hrest : ∀ x ∈ c'.rest.head?, isIdentifierPart x = false)
    (hdepth : 4 * c.rest.length + 4 ≤ depth) : RunsTo depth c ⟨base.tree, false⟩ true c' := by
  refine runsTo_primary ?_
  have hstop := hc.position_eq
  rw [hstart, Nat.zero_add] at hstop
  cases base with
  | name word isName isFree =>
    have hfree : word ∉ Expr.reservedWords := fun hmem =>
      isFree (List.mem_append_left ["typeof", "void", "delete"] hmem)
    have hderives := derives_identifier isName hfree hc hrest hdepth
    rwa [hstart, Nat.zero_add] at hderives
  | group inner =>
    have hderives := inner.derives_group hin hc hdepth
    rwa [hstart, hstop] at hderives

/-- No unary operator stands where a base does, nor blanks. -/
theorem Base.begins (base : Base) (hc : c.Passes base.text c')
    (hrest : ∀ x ∈ c'.rest.head?, isIdentifierPart x = false) :
    c.pastBlanks = c ∧ Token.unaryOperator? c.rest = none := by
  cases base with
  | name word isName isFree =>
    obtain ⟨hpast, -, -⟩ := Source.propertyName_of_isName isName hc hrest
    refine ⟨hpast, ?_⟩
    rw [hc.rest_eq]
    refine Source.opensNoOperator_word isName ?_ c'.rest hrest
    refine Option.eq_none_iff_forall_not_mem.2 fun operator hoperator => ?_
    obtain rfl : operator.text = word := by simpa using List.find?_some hoperator
    -- The operators that are words are none of the names here, and the others are no names.
    obtain ⟨x, xs, htext, hstart, -⟩ := isName
    cases operator with
    | typeof | void | delete => exact isFree (by decide)
    | minus | plus | not | bitNot =>
      cases htext
      exact not_mem_symbols hstart (by decide)
  | group inner =>
    have hrest : c.rest = '(' :: (inner.source.toList ++ [')'] ++ c'.rest) := hc.rest_eq
    refine ⟨Cursor.pastBlanks_of_cons hrest (by decide), ?_⟩
    rw [hrest]
    rfl

end Reading

/-! ## Whole texts -/

namespace Expr

/-- A run is read as the left fold of its links over its base, in one chain if a link is
optional. -/
theorem parseWithin_run (run : Run) {limits : Limits}
    (hlength : limits.exceeded? run.source = none)
    (hdepth : 4 * (utf8Size run.source.toList + 1) ≤ limits.maxDepth) :
    parseWithin limits run.source = .ok run.tree := by
  -- The cursor passes the base, and then the links up to the end.
  obtain ⟨d, d', hbase, hlinks, hend⟩ : ∃ d d', (Cursor.ofString run.source).Passes _ d ∧ _ :=
    Cursor.exists_passes_ofList run.base.text (RunLink.texts run.links)
  have hword : ∀ x ∈ d'.rest.head?, isIdentifierPart x = false := by
    rw [hend]
    exact nofun
  have hword₁ : ∀ x ∈ d.rest.head?, isIdentifierPart x = false := by
    rw [hlinks.rest_eq]
    exact RunLink.head?_texts hword
  obtain ⟨hpast, hoperator⟩ := run.base.begins hbase hword₁
  have hfirst := run.base.runsTo (Cursor.isIn_ofString run.source) hbase rfl hword₁ le_rfl
  have hrun := hfirst.links run.links hlinks hword (levels_passes hbase le_rfl)
  rw [hbase.position_eq, Cursor.ofString_position, Nat.zero_add, Bool.false_or] at hrun
  obtain ⟨depth, c', hderives, hend'⟩ := hrun.readsToEnd hend hpast hoperator
  exact parseWithin_eq_ok_of_reads ⟨depth, c', hderives, hend'⟩ hlength hdepth

/-- A keyword as a name, an optional access and a call, over a group that begins within its
parentheses. -/
theorem parseWithin_run_mixed : ∃ run : Run, run.source = "(x) .new?.[x](x)" ∧
    run.tree = .chain ⟨1, 16⟩
      (.call ⟨1, 16⟩
        (.member ⟨1, 13⟩
          (.member ⟨1, 8⟩ (.identifier ⟨1, 2⟩ "x") (.identifier ⟨5, 8⟩ "new") false false)
          (.identifier ⟨11, 12⟩ "x") true true)
        [.identifier ⟨14, 15⟩ "x"] false) ∧
    Limits.standard.exceeded? run.source = none ∧
    4 * (utf8Size run.source.toList + 1) ≤ Limits.standard.maxDepth ∧
    parseWithin .standard run.source = .ok run.tree := by
  let x : Argument := ⟨⟨"x", .identifier ⟨0, 1⟩ "x", ⟨.standard, rfl⟩⟩, rfl⟩
  let keyword : Key := .named "new" (Source.isName_of_mem_reservedWords (by decide))
  let run : Run := ⟨.group x.toAccepted, [.member ⟨⟨[' '], by decide⟩, false, keyword⟩,
    .member ⟨⟨[], nofun⟩, true, .computed x.toAccepted⟩, .call ⟨⟨[], nofun⟩, false, [x]⟩]⟩
  have hsource : run.source = "(x) .new?.[x](x)" := by decide +kernel
  have hdepth : 4 * (utf8Size run.source.toList + 1) ≤ Limits.standard.maxDepth := by
    rw [hsource]
    decide
  refine ⟨run, hsource, ?_, rfl, hdepth, parseWithin_run run rfl hdepth⟩
  dsimp only [run, keyword, x]
  rfl

end Expr

end Estree
