import Estree.Proofs.Grammar.Depth
import Estree.Proofs.Grammar.Likeness
import Estree.Proofs.Grammar.Spans

/-!
# Parsers that are used again

`Parser.call_after`: whatever a parser has been asked before, no level is open when it is asked
again, and it answers as a new parser does for the text that is left, but for offsets and locations.
The two readings keep step: the parser that counts the open levels, at its place in the source, and
the reading that is told the levels left, at the start of what is left.

> `inStep source offset depth`: the likeness of the two. Offsets of the second one are moved by the
> offset of the first, and so many levels are open in the first one as long as it goes on.
> `results_nested`: a production one level further down. The parser counts the level before it and
> takes it back after it, whether the production has ended with a value or in a fault.
> `Ready`: no level is open, and the parser stands in the source. A new parser is ready, and a call
> leaves it ready (`Ready.call`), so it is ready after any number of calls (`Ready.after`).

That levels are taken back after a fault is what makes the parser fit for use again: a fault passes
through all productions that are open when it is raised, and each of them takes its own level back.
-/

namespace Estree

/-- The error at an offset that is counted from a later place of the source. -/
def SyntaxError.movedBy (error : SyntaxError) (source : String) (offset : Nat) : SyntaxError :=
  .atOffset source (offset + error.offset) error.message

/-- The answer for the rest of a source, as one about the whole source. -/
def Expr.answerMovedBy (source : String) (offset : Nat) :
    Except SyntaxError Expr → Except SyntaxError Expr
  | .ok e => .ok (e.movedBy offset)
  | .error error => .error (error.movedBy source offset)

namespace Parser

open Likeness

/-- The parser stands in the source with so many levels open, and the other reading in the text that
begins at an offset of the source. -/
def inStep (source : List Char) (offset depth : Nat) : Likeness Parser Cursor where
  left := id
  right := (offset + ·)
  cursors c d := c.rest = d.rest ∧ c.position = offset + d.position ∧ c.IsIn source
  beside parser _ := parser.depth = depth
  beside_moveTo _ _ h := h
  position_eq h := h.2.1
  add_eq n h := by
    simp only [id_eq] at h ⊢
    omega
  solid_eq h := congrArg Text.solid h.1
  skip {c d n} h _ := by
    obtain ⟨hrest, hposition, hin⟩ := h
    refine ⟨?_, ?_, hin.skip n⟩
    · rw [Cursor.skip_rest, Cursor.skip_rest, hrest]
    · show c.position + _ = offset + (d.position + _)
      rw [hposition, hrest, Nat.add_assoc]
  skipBlanks {c d} lineEnds h := by
    obtain ⟨hrest, hposition, hin⟩ := h
    refine ⟨?_, ?_, hin.of_reaches (c.reaches_skipBlanks lineEnds)⟩
    · show c.rest.dropWhile _ = d.rest.dropWhile _
      rw [hrest]
    · show c.position + _ = offset + (d.position + _)
      rw [hposition, hrest, Nat.add_assoc]

variable {source : List Char} {offset depth left maxDepth : Nat} {parser : Parser} {c : Cursor}

/-- The count has gone up before a production and comes down after it, also after a fault. -/
theorem results_nested {p q : Production} {values : p.Yield → q.Yield → Prop}
    {scan : ScanOf Parser p.Yield} {g : Grammar} (hlevels : depth + left = maxDepth)
    (h : (inStep source offset depth).States parser c)
    (hscan : ∀ below, left = below + 1 → ∀ parser,
      (inStep source offset (depth + 1)).States parser c →
      (inStep source offset (depth + 1)).Results values (scan parser) (g below q c)) :
    (inStep source offset depth).Results values (nested maxDepth scan parser)
      (g.nested left q c) := by
  have hdepth : parser.depth = depth := h.beside
  cases left with
  | zero =>
    rw [nested, if_pos (by omega)]
    exact results_fail h
  | succ below =>
    rw [nested, if_neg (by omega)]
    have hresults := hscan below rfl { parser with depth := parser.depth + 1 }
      ⟨h.cursors, congrArg (· + 1) hdepth⟩
    show (inStep source offset depth).Results values _ (g below q c)
    obtain ⟨v, w, next, d, hrun, hrun', hvalues, hcursors, hbeside⟩ |
      ⟨fault, fault', next, d, hrun, hrun', hcause, hoffset, hcursors, hbeside⟩ :=
      hresults.ok_or_error
    · rw [hrun, hrun']
      exact ⟨hvalues, hcursors, congrArg (· - 1) hbeside⟩
    · rw [hrun, hrun']
      exact ⟨hcause, hoffset, hcursors, congrArg (· - 1) hbeside⟩

/-- Counting the open levels is as good as being told the levels left. -/
theorem results_unfold (fuel : Nat) : ∀ {depth left : Nat}, depth + left = maxDepth →
    (inStep source offset depth).Grammars (fun _ p => unfold maxDepth fuel p)
      (Grammar.unfold fuel) 0 left := by
  induction fuel with
  | zero =>
    intro depth left _ p q values _ parser c h
    exact results_fail h
  | succ fuel ih =>
    intro depth left hlevels p q values hpq parser c h
    refine step_alike (ih hlevels) (fun p q values hpq parser c h => ?_) hpq h
    refine results_nested hlevels h fun below hbelow parser h => ?_
    subst hbelow
    exact ih (by omega : depth + 1 + below = maxDepth) hpq h

/-- Whole texts keep step from a parser with no level open. -/
theorem results_program (maxDepth : Nat) (hdepth : depth = 0)
    (h : (inStep source offset depth).States parser c) :
    (inStep source offset depth).Results (inStep source offset depth).Values
      (program maxDepth parser) (Scan.program maxDepth c) := by
  subst hdepth
  have hrest : parser.cursor.rest = c.rest := h.cursors.1
  refine results_programOf ?_
  show (inStep source offset 0).Results _
    (unfold maxDepth (Grammar.fuel parser.cursor.rest.length) (.sequence false) parser) _
  rw [hrest]
  exact results_unfold _ (Nat.zero_add maxDepth) (.sequence false) h

/-- A parser that is ready to be asked: no level is open, and it stands in the source. -/
structure Ready (source : String) (parser : Parser) : Prop where
  depth_eq : parser.depth = 0
  isIn : parser.cursor.IsIn source.toList

variable {source : String}

/-- A new parser is ready. -/
theorem ready_ofString (source : String) : Ready source (.ofString source) :=
  ⟨rfl, Cursor.isIn_ofString source⟩

/-- A call answers as a new parser does for the text that is left, and leaves the parser ready. -/
theorem Ready.call (h : Ready source parser) (maxDepth : Nat) :
    (parser.call source maxDepth).1 = Expr.answerMovedBy source parser.cursor.position
      (Expr.parseWithin ⟨none, maxDepth⟩ (String.ofList parser.cursor.rest)) ∧
    Ready source (parser.call source maxDepth).2 := by
  have hstates : (inStep source.toList parser.cursor.position 0).States parser
      (Cursor.ofString (String.ofList parser.cursor.rest)) := by
    refine ⟨⟨?_, rfl, h.isIn⟩, h.depth_eq⟩
    show parser.cursor.rest = (String.ofList parser.cursor.rest).toList
    rw [String.toList_ofList]
  have hresults := results_program maxDepth rfl hstates
  rw [Parser.call, EStateM.run, Expr.parseWithin_eq_report]
  obtain ⟨e, e', next, d, hrun, hrun', hvalues, hcursors, hbeside⟩ |
    ⟨fault, fault', next, d, hrun, hrun', hcause, hoffset, hcursors, hbeside⟩ :=
    hresults.ok_or_error
  · rw [hrun, hrun']
    have htree : e.relocated id = e'.movedBy parser.cursor.position := hvalues
    rw [Expr.relocated_id] at htree
    exact ⟨congrArg Except.ok htree, hbeside, hcursors.2.2⟩
  · rw [hrun, hrun']
    have hoffset' : fault.offset = parser.cursor.position + fault'.offset := hoffset
    refine ⟨congrArg Except.error ?_, hbeside, hcursors.2.2⟩
    show SyntaxError.atOffset source fault.offset fault.cause.message =
      .atOffset source (parser.cursor.position + fault'.offset) fault'.cause.message
    rw [hcause, hoffset']

/-- After any number of calls the parser is ready. -/
theorem Ready.after (h : Ready source parser) (maxDepth calls : Nat) :
    Ready source (parser.after source maxDepth calls) := by
  induction calls generalizing parser with
  | zero => exact h
  | succ calls ih => exact ih (h.call maxDepth).2

/-- The answers of several calls are those of one call each, on the parser as the calls before have
left it. -/
theorem answers_eq_map (source : String) (maxDepth calls : Nat) (parser : Parser) :
    answers source maxDepth calls parser = (List.range calls).map fun n =>
      ((parser.after source maxDepth n).call source maxDepth).1 := by
  induction calls generalizing parser with
  | zero => rfl
  | succ calls ih =>
    rw [List.range_succ_eq_map, List.map_cons, List.map_map]
    exact congrArg _ (ih _)

/-- However often a parser of a source has been asked, no level is open, it stands at a place of the
source, and the next call gives what a new parser gives for the text from there on. -/
theorem call_after (source : String) (maxDepth calls : Nat) :
    (after source maxDepth calls (.ofString source)).depth = 0 ∧
      (after source maxDepth calls (.ofString source)).cursor.IsIn source.toList ∧
      ((after source maxDepth calls (.ofString source)).call source maxDepth).1 =
        Expr.answerMovedBy source (after source maxDepth calls (.ofString source)).cursor.position
          (Expr.parseWithin ⟨none, maxDepth⟩
            (String.ofList (after source maxDepth calls (.ofString source)).cursor.rest)) := by
  have hready := (ready_ofString source).after maxDepth calls
  exact ⟨hready.depth_eq, hready.isIn, (hready.call maxDepth).1⟩

end Parser

end Estree
