import Estree.Proofs.Grammar.Depth
import Estree.Proofs.Grammar.Likeness
import Estree.Proofs.Grammar.Spans
import Estree.Proofs.Number.Scanned

/-!
# Where numbers begin

The grammar read with a list beside the cursor, where every place is noted at which a number begins
(`Watch`). The reading itself does not look at the list: it keeps step with the reading without one.
What is known of the list is that all numbers in it have been read, or, when the reading has ended
in a fault, that a number which has not been read has ended in this very fault. So what becomes of
each number (`Leaf.number_scans`) is seen from outside: `parseWithin_numbers`.

> `Watch.noting`: the one place where the watched grammar differs. A primary expression is noted if
> a number starts there.
> `Watch.Sound`: of each place in the list, that a number starts there and that reading it ends in
> no fault, but for those that are allowed.
> `Watch.sound`: as a likeness of watches and cursors, that the list is sound as long as the reading
> goes on, and sound but for one fault when it has ended in this fault.

A fault that ends one number ends the whole reading, as no production goes on after it; so the fault
of the number and the fault that a caller is told of are the same one. The last section says that
there is no third way: a number that has been scanned is always a number (`unfold_neverInvalid`), so
the message for an invalid one is never given.
-/

namespace Estree

open Scan

/-- Cause and offset make up a fault. -/
theorem Fault.eq_of {fault fault' : Fault} (hcause : fault.cause = fault'.cause)
    (hoffset : fault.offset = fault'.offset) : fault = fault' := by
  obtain ⟨cause, offset⟩ := fault
  obtain ⟨cause', offset'⟩ := fault'
  exact congr (congrArg Fault.mk hcause) hoffset

/-! ## Watching -/

/-- A place in a text, and the places where numbers have begun so far, the last one first. -/
structure Watch where
  cursor : Cursor
  begun : List Cursor

instance : HasCursor Watch where
  cursor watch := watch.cursor
  moveTo watch cursor := { watch with cursor }
  cursor_moveTo _ _ := rfl

namespace Watch

/-- A watch at the start of a text. -/
def ofString (source : String) : Watch := ⟨.ofString source, []⟩

/-- Notes the place if the production that is opened there is a number: a primary expression where
a number starts. -/
def noting (watch : Watch) : Production → Watch
  | .primaryForm =>
    if watch.cursor.sees .numberStart then
      { watch with begun := watch.cursor :: watch.begun }
    else
      watch
  | _ => watch

/-- Reads a production one level further down. -/
def nested (g : Grammar Watch) (depth : Nat) (production : Production) :
    ScanOf Watch production.Yield :=
  match depth with
  | 0 => Scan.fail .tooDeep
  | below + 1 => g below production

/-- The grammar, unfolded so many times, with a note of where numbers begin. -/
def unfold : (fuel : Nat) → (depth : Nat) → (production : Production) →
    ScanOf Watch production.Yield
  | 0, _, _ => Scan.fail .outOfFuel
  | fuel + 1, depth, production => fun watch =>
    Grammar.stepWith (unfold fuel) (nested (unfold fuel) depth) depth production
      (watch.noting production)

/-- Reads from the cursor to the end of the text, with at most `maxDepth` levels open at a time. -/
def program (maxDepth : Nat) : ScanOf Watch Expr :=
  Scan.programOf fun length => unfold (Grammar.fuel length) maxDepth (.sequence false)

/-- The watch as a reading leaves it. -/
def last {α : Type} : EStateM.Result Fault Watch α → Watch
  | .ok _ watch | .error _ watch => watch

end Watch

/-- The places where numbers begin as a text is read within limits, the last one first. -/
def Expr.numbersBegun (limits : Limits) (source : String) : List Cursor :=
  match limits.exceeded? source with
  | some _ => []
  | none => (Watch.last ((Watch.program limits.maxDepth).run (.ofString source))).begun

namespace Watch

variable {source : List Char} {begun : List Cursor} {watch : Watch} {c : Cursor} {depth : Nat}

/-- A watch and a cursor at the same place of the source. Of the list something is known as long as
the readings go on, and something else when they have ended in a fault. -/
def inStep (source : List Char) (going : List Cursor → Prop) (ended : Fault → List Cursor → Prop)
    (h : ∀ fault begun, going begun → ended fault begun) : Likeness Watch Cursor where
  left := id
  right := id
  cursors c d := c = d ∧ d.IsIn source
  beside watch _ := going watch.begun
  beside_moveTo _ _ h := h
  ended fault watch _ := ended fault watch.begun
  ended_of_beside fault := h fault _
  position_eq h := congrArg Cursor.position h.1
  add_eq n h := by
    simp only [id_eq] at h ⊢
    omega
  solid_eq h := by
    rw [h.1]
  skip := by
    rintro c _ n ⟨rfl, hin⟩ -
    exact ⟨rfl, hin.skip n⟩
  skipBlanks := by
    rintro c _ lineEnds ⟨rfl, hin⟩
    exact ⟨rfl, hin.of_reaches (c.reaches_skipBlanks lineEnds)⟩

/-- All places of the list are in the source, numbers start there, and have been read without a
fault, unless it is one of these. -/
def Sound (source : List Char) (faults : Fault → Prop) (begun : List Cursor) : Prop :=
  ∀ c ∈ begun, c.IsIn source ∧ Pattern.numberStart.isAtStart c.rest = true ∧
    ∀ fault c', Leaf.number c = .error fault c' → faults fault

/-- The list is sound, but for the number in which the reading has ended. -/
def sound (source : List Char) : Likeness Watch Cursor :=
  inStep source (Sound source fun _ => False) (fun fault => Sound source (· = fault))
    fun _ _ h c hc => ⟨(h c hc).1, (h c hc).2.1, fun _ _ hrun => ((h c hc).2.2 _ _ hrun).elim⟩

/-- The list stays as it is. -/
def kept (source : List Char) (begun : List Cursor) : Likeness Watch Cursor :=
  inStep source (· = begun) (fun _ => (· = begun)) fun _ _ h => h

/-! ## Numbers as primary expressions -/

section Primary

/-- After a value that leaves the state alone, the second part goes on from it. -/
theorem bind_run_of_ok {σ α β : Type} {s : σ} {m : ScanOf σ α} {a : α} (h : m s = .ok a s)
    (f : α → ScanOf σ β) : (m >>= f) s = f a s := by
  show EStateM.bind m f s = _
  rw [EStateM.bind, h]

variable {σ : Type} [HasCursor σ] {s : σ}

/-- Where no update stands, none is taken. -/
theorem takeUpdate?_run_none (h : Token.updateOperator? (HasCursor.cursor s).rest = none) :
    (Token.takeUpdate? : ScanOf σ _) s = .ok none s := by
  have hahead : (ahead : ScanOf σ _) s = .ok (HasCursor.cursor s).rest s := rfl
  rw [Token.takeUpdate?, bind_run_of_ok hahead, h]
  rfl

/-- Where no word stands, none is taken. -/
theorem takeWord?_run_none (h : Text.leadingWord (HasCursor.cursor s).rest = []) :
    (takeWord? : ScanOf σ _) s = .ok none s := by
  rw [takeWord?, Likeness.here_bind, Cursor.takeWord?, Cursor.word?, h]
  rfl

/-- Where a number starts, a primary expression is a number. -/
theorem primaryForm_run_number (g : Grammar σ) (depth : Nat)
    (h : (HasCursor.cursor s).sees .numberStart = true) :
    g.primaryForm depth s = (Leaf.number >>= fun e => pure (some e) : ScanOf σ _) s := by
  obtain ⟨x, hx, hstart, hsymbol⟩ := Text.exists_head?_of_numberStart h ['(', '+', '-'] rfl
  simp only [List.mem_cons, List.not_mem_nil, or_false, not_or] at hsymbol
  obtain ⟨hopen, hupdateSymbol⟩ := hsymbol
  have hhead : ∀ y ∈ (HasCursor.cursor s).rest.head?, y = x := fun y hy =>
    Option.some.inj (hy.symm.trans hx)
  have hparen : (HasCursor.cursor s).sees (.char '(') = false := by
    refine Bool.eq_false_iff.2 fun hsees => hopen ?_
    exact (hhead _ ((Pattern.isAtStart_char _ _).1 hsees)).symm
  have hupdate : Token.updateOperator? (HasCursor.cursor s).rest = none :=
    Token.updateOperator?_eq_none fun y hy => hhead y hy ▸ hupdateSymbol
  have hword : Text.leadingWord (HasCursor.cursor s).rest = [] :=
    Text.leadingWord_eq_nil fun y hy => hhead y hy ▸ hstart
  have hposition : (position : ScanOf σ _) s = .ok (HasCursor.cursor s).position s := rfl
  have hsees (pattern : Pattern) :
      (sees pattern : ScanOf σ _) s = .ok ((HasCursor.cursor s).sees pattern) s := rfl
  rw [Grammar.primaryForm, bind_run_of_ok hposition, bind_run_of_ok (hsees _), hparen,
    if_neg Bool.false_ne_true, bind_run_of_ok (takeUpdate?_run_none hupdate)]
  dsimp only
  rw [bind_run_of_ok (takeWord?_run_none hword)]
  dsimp only
  rw [bind_run_of_ok (hsees _), h, if_pos rfl]

end Primary

/-! ## What is known of the list -/

/-- One more place may be noted if the number there is read, or ends in an allowed fault. -/
theorem Sound.cons {faults faults' : Fault → Prop} (h : Sound source faults begun)
    (hle : ∀ fault, faults fault → faults' fault) (hin : c.IsIn source)
    (hstart : Pattern.numberStart.isAtStart c.rest = true)
    (hfault : ∀ fault c', Leaf.number c = .error fault c' → faults' fault) :
    Sound source faults' (c :: begun) := by
  intro d hd
  rcases List.mem_cons.1 hd with rfl | hd
  · exact ⟨hin, hstart, hfault⟩
  · obtain ⟨hin, hstart, hfault⟩ := h d hd
    exact ⟨hin, hstart, fun fault c' hrun => hle fault (hfault fault c' hrun)⟩

/-- The place where a number begins is noted, and then the number is read. -/
theorem results_number (h : (sound source).States watch c)
    (hstart : Pattern.numberStart.isAtStart c.rest = true) :
    (sound source).Results (sound source).Values
      (Leaf.number { watch with begun := watch.cursor :: watch.begun }) (Leaf.number c) := by
  obtain ⟨⟨hcursor, hin⟩, hsound⟩ := h
  have hcursor' : watch.cursor = c := hcursor
  have hkept : (kept source (c :: watch.begun)).States
      { watch with begun := watch.cursor :: watch.begun } c :=
    ⟨⟨hcursor', hin⟩, congrArg (· :: watch.begun) hcursor'⟩
  have hresults := Likeness.results_number hkept
  obtain ⟨e', e, next, d, hrun', hrun, hvalues, hcursors, hlist⟩ |
    ⟨fault', fault, next, d, hrun', hrun, hcause, hoffset, hcursors, hlist⟩ := hresults.ok_or_error
  · rw [hrun', hrun]
    refine ⟨hvalues, hcursors, ?_⟩
    have hnext : next.begun = c :: watch.begun := hlist
    show Sound source _ next.begun
    rw [hnext]
    refine hsound.cons (fun _ => id) hin hstart fun fault c' hrun' => ?_
    cases hrun.symm.trans hrun'
  · rw [hrun', hrun]
    have hnext : next.begun = c :: watch.begun := hlist
    have hfault : fault' = fault := Fault.eq_of hcause hoffset
    refine ⟨hcause, hoffset, hcursors, ?_⟩
    show Sound source _ next.begun
    rw [hnext]
    -- The number that is noted here is the one that the whole ends in.
    refine hsound.cons (fun _ => False.elim) hin hstart fun fault'' c' hrun' => ?_
    cases hrun.symm.trans hrun'
    exact hfault.symm

/-- The grammar reads the same with the list and without it, and the list stays sound. -/
theorem grammars_unfold (source : List Char) (fuel : Nat) :
    ∀ depth, (sound source).Grammars (unfold fuel) (Grammar.unfold fuel) depth depth := by
  induction fuel with
  | zero => exact fun _ _ _ _ _ _ _ h => Likeness.results_fail h
  | succ fuel ih =>
    intro depth p q values hpq watch c h
    have hnested : ∀ ⦃p q values⦄, Production.Like ⟨(sound source).left, none⟩
        ⟨(sound source).right, none⟩ p q values → ∀ ⦃watch c⦄, (sound source).States watch c →
        (sound source).Results values (nested (unfold fuel) depth p watch)
          (Grammar.nested (Grammar.unfold fuel) depth q c) := by
      intro p q values hpq watch c h
      cases depth with
      | zero => exact Likeness.results_fail h
      | succ below => exact ih below hpq h
    -- Only where a number starts there is something to note.
    have hnoting : watch.noting p = watch ∨ p = .primaryForm ∧
        Pattern.numberStart.isAtStart c.rest = true := by
      obtain ⟨⟨hcursor, -⟩, -⟩ := h
      have hcursor' : watch.cursor = c := hcursor
      cases p with
      | primaryForm =>
        rw [noting, hcursor']
        split
        next hsees => exact .inr ⟨rfl, hsees⟩
        next => exact .inl rfl
      | _ => exact .inl rfl
    rcases hnoting with hsame | ⟨rfl, hstart⟩
    · have hstep := Likeness.step_alike (ih depth) hnested hpq h
      rw [← hsame] at hstep
      exact hstep
    · cases hpq
      have hcursor : watch.cursor = c := h.cursors.1
      have hsees : watch.cursor.sees .numberStart = true := hcursor ▸ hstart
      have hnoting : watch.noting .primaryForm =
          { watch with begun := watch.cursor :: watch.begun } := if_pos hsees
      have hrun := primaryForm_run_number (unfold fuel) depth (s := watch.noting .primaryForm)
        (hnoting ▸ hsees)
      have hrun' := primaryForm_run_number (Grammar.unfold fuel) depth (s := c) hstart
      have hresults : (sound source).Results (sound source).Values
          (Grammar.primaryForm (unfold fuel) depth (watch.noting .primaryForm))
          (Grammar.primaryForm (Grammar.unfold fuel) depth c) := by
        rw [hrun, hrun', hnoting]
        exact (results_number h hstart).bind fun _ _ _ _ hvalues h =>
          Likeness.results_pure (View.Same.some hvalues) h
      exact hresults

/-- Texts are read the same with the list and without it, and the list stays sound. -/
theorem results_program (maxDepth : Nat) (h : (sound source).States watch c) :
    (sound source).Results (sound source).Values (program maxDepth watch)
      (Scan.program maxDepth c) := by
  have hcursor : watch.cursor = c := h.cursors.1
  refine Likeness.results_programOf ?_
  show (sound source).Results _
    (unfold (Grammar.fuel watch.cursor.rest.length) maxDepth (.sequence false) watch) _
  rw [hcursor]
  exact grammars_unfold source _ _ (.sequence false) h

end Watch

/-! ## No other fault of numbers -/

/-- No fault is an excuse, and none says that a number is invalid. -/
def Excuses.neverInvalid : Excuses where
  common cause := ∀ raw, cause ≠ .invalidNumber raw
  excused _ := False
  common_of_production := by
    rintro _ hproduction raw rfl
    cases hproduction

/-- No production ends in the fault that a number is invalid. -/
theorem Grammar.unfold_neverInvalid (fuel depth : Nat) (p : Production) (c : Cursor) :
    Agrees .neverInvalid c (unfold fuel depth p c) (unfold fuel depth p c) :=
  unfold_agrees_self (by intro _ h; cases h) (by intro _ h; cases h) fuel depth p c

/-- No other fault has the wording of an invalid number; the first letter tells it from the
others. -/
theorem Cause.eq_invalidNumber_of_message {cause : Cause} {raw : String}
    (h : cause.message = (Cause.invalidNumber raw).message) :
    ∃ raw', cause = .invalidNumber raw' := by
  have hstart : cause.message.toList.head? = some 'i' := by
    rw [h]
    show ("invalid number '" ++ raw ++ "'").toList.head? = _
    simp
  cases cause with
  | invalidNumber raw' => exact ⟨raw', rfl⟩
  | _ =>
    unfold message at hstart
    simp at hstart

namespace Expr

/-- What a text is read as within limits that it does not exceed. -/
theorem parseWithin_eq_report_of_length {limits : Limits} {source : String}
    (h : limits.exceeded? source = none) :
    parseWithin limits source =
      report source (Scan.program limits.maxDepth (.ofString source)) := by
  rw [parseWithin, h]
  exact parseWithin_eq_report limits.maxDepth source

/-- The places are in the source, and what becomes of the numbers there is seen in the answer. -/
theorem scansNumber_of_mem {limits : Limits} {source : String} {c : Cursor}
    (h : c ∈ numbersBegun limits source) : c.IsIn source.toList ∧
      c.ScansNumber fun fault => parseWithin limits source = .error (fault.toError source) := by
  rw [numbersBegun] at h
  split at h
  next => cases h
  next hlength =>
    rw [parseWithin_eq_report_of_length hlength]
    have hstates : (Watch.sound source.toList).States (Watch.ofString source)
        (.ofString source) := ⟨⟨rfl, Cursor.isIn_ofString source⟩, nofun⟩
    -- The run that records its numbers is compared with the one that answers: they end alike, and
    -- each number that is recorded fails only if the whole does.
    have hresults := Watch.results_program limits.maxDepth hstates
    rw [EStateM.run] at h
    obtain ⟨e, e', watch, d, hrun, hrun', -, -, hsound⟩ |
      ⟨fault, fault', watch, d, hrun, hrun', hcause, hoffset, -, hsound⟩ := hresults.ok_or_error
    · rw [hrun] at h
      obtain ⟨hin, hstart, hfault⟩ := hsound c h
      exact ⟨hin, (Leaf.number_scans hstart).imp fun fault ⟨c', hrun⟩ =>
        (hfault fault c' hrun).elim⟩
    · rw [hrun] at h
      obtain ⟨hin, hstart, hfault⟩ := hsound c h
      have hsame : fault = fault' := Fault.eq_of hcause hoffset
      refine ⟨hin, (Leaf.number_scans hstart).imp fun _ ⟨c', hrun⟩ => ?_⟩
      rw [hfault _ c' hrun, hrun', hsame]
      rfl

/-- No text has a number that is found to be invalid. -/
theorem message_ne_invalidNumber {limits : Limits} {source : String} {error : SyntaxError}
    (h : parseWithin limits source = .error error) (raw : String) :
    error.message ≠ (Cause.invalidNumber raw).message := by
  intro hmessage
  cases hlength : limits.exceeded? source with
  | some limit =>
    rw [parseWithin, hlength] at h
    cases h
    obtain ⟨_, hcause⟩ : ∃ raw', Cause.tooLong limit = .invalidNumber raw' :=
      Cause.eq_invalidNumber_of_message hmessage
    cases hcause
  | none =>
    rw [parseWithin_eq_report_of_length hlength] at h
    obtain ⟨fault, c, hrun, rfl⟩ := exists_fault_of_report h
    have hagrees := program_agrees (x := .neverInvalid) (by intro _ _ h; cases h)
      (Grammar.unfold_neverInvalid (Grammar.fuel (Cursor.ofString source).rest.length)
        limits.maxDepth (.sequence false) (.ofString source))
    rw [hrun] at hagrees
    obtain ⟨raw', hcause⟩ : ∃ raw', fault.cause = .invalidNumber raw' :=
      Cause.eq_invalidNumber_of_message hmessage
    exact (hagrees.resolve_left id).1 raw' hcause

/-- Whatever the text, of each number that begins in it the longest mantissa is read and, if a
marker follows, a power of ten with all its digits. The value is the nearest double, and the same
spelling alone is read as the same number. If there is no digit behind the marker and its sign, the
reading ends there. No number is ever found to be invalid. -/
theorem parseWithin_numbers (limits : Limits) (source : String) :
    (∀ c ∈ numbersBegun limits source, c.IsIn source.toList ∧
      c.ScansNumber fun fault => parseWithin limits source = .error (fault.toError source)) ∧
    ∀ error raw, parseWithin limits source = .error error →
      error.message ≠ (Cause.invalidNumber raw).message :=
  ⟨fun _ => scansNumber_of_mem, fun _ raw h => message_ne_invalidNumber h raw⟩

/-- The second number of the array has a marker and a sign, and no digit behind them. -/
theorem parseWithin_numbers_dangling :
    let c : Cursor := ⟨4, "2.e+]".toList⟩
    c ∈ numbersBegun .standard "[0, 2.e+]" ∧ c.ScansNumber fun fault =>
      parseWithin .standard "[0, 2.e+]" = .error (fault.toError "[0, 2.e+]") := by
  intro c
  have hbegun : c ∈ numbersBegun .standard "[0, 2.e+]" := by decide +kernel
  exact ⟨hbegun, ((parseWithin_numbers .standard "[0, 2.e+]").1 c hbegun).2⟩

/-- Three numbers begin here: `1.`, `.5e2` and `3`. -/
example : (numbersBegun .standard "1..x + .5e2[3]").map (·.position) = [12, 7, 0] := by
  decide +kernel

end Expr

end Estree
