import Estree.Cursor.Session
import Estree.Proofs.Cursor.Needle
import Estree.Proofs.Cursor.Taken

/-!
# What every session keeps

A session is a cursor in a source with steps that look, take text or expect it, and places that have
been marked for going back to. Its steps are the only way to move it, so what holds after each of
them holds of every session.

> `Trail.obeys_after`: however a session has come to where it stands, it stands between two
> characters of its source, and the next move obeys `Trail.Obeys`. Only going back to a mark moves
> it towards the start; looking leaves it where it is; taking gives the text that it moves over,
> never an empty one, and takes as much as the classes of characters allow.

The moves may use any patterns, and go back to any of the marks. A `Trail` therefore keeps all marks
that have been made, and its invariant is that the cursor and all of them are places in the source
(`IsIn`).

A step is taken apart once: one that takes text moves past it and answers it
(`Session.step_of_takes`), and one that is not going back leads further on (`Session.reaches_step`).
The law of a move (`IsIn.obeys`) and the invariant of a run (`IsIn.after`) follow from these two.
-/

namespace Estree

namespace Cursor

/-! ## Sessions and their marks -/

/-- Whether a step only looks at what is there. -/
def Step.looks : Step → Bool
  | .take _ | .expect _ _ | .takeWhile _ | .skipBlanks _ | .takeWord | .mark | .reset => false
  | _ => true

/-- Whether a step takes text. -/
def Step.takes : Step → Bool
  | .take _ | .expect _ _ | .takeWhile _ | .takeWord => true
  | _ => false

/-- The text of an answer. -/
def Answer.text? : Answer → Option String
  | .text value => some value
  | _ => none

/-- A session together with all places that have been marked, the last one first. -/
structure Trail where
  session : Session
  marks : List Cursor

/-- A step of the session, or going back to one of its marks. -/
inductive Move where
  | step (step : Step)
  | revisit (index : Nat)

/-- Whether a move goes back to a mark. -/
def Move.goesBack : Move → Bool
  | .step .reset | .revisit _ => true
  | _ => false

namespace Trail

/-- The start of a source, which is marked. -/
def start (source : String) : Trail := ⟨.start source, [.ofString source]⟩

/-- The marks after a step. -/
def marksAfter (trail : Trail) : Step → List Cursor
  | .mark => trail.session.cursor :: trail.marks
  | _ => trail.marks

/-- Carries out a move. Going back to a mark that there is not has no effect. -/
def move (trail : Trail) : Move → Trail × Answer
  | .step step =>
    let (session, answer) := trail.session.step step
    (⟨session, trail.marksAfter step⟩, answer)
  | .revisit index =>
    let cursor := trail.marks.getD index trail.session.cursor
    (⟨{ trail.session with cursor }, trail.marks⟩, .nothing)

/-- Carries out moves one after the other. -/
def after (trail : Trail) : List Move → Trail
  | [] => trail
  | move :: moves => (trail.move move).1.after moves

/-- How many bytes of the source precede the place of the session. -/
def position (trail : Trail) : Nat := trail.session.cursor.position

/-- The session stands in the source, and so does every place that it can go back to. -/
structure IsIn (source : String) (trail : Trail) : Prop where
  source_eq : trail.session.source = source
  cursor_isIn : trail.session.cursor.IsIn source.toList
  marks_isIn : ∀ mark ∈ trail.marks, mark.IsIn source.toList
  marked_mem : trail.session.marked ∈ trail.marks

/-- Nothing is taken and the position stays, or the text between the positions is taken, which is
not empty. -/
def Takes (source : String) (start stop : Nat) : Option String → Prop
  | none => stop = start
  | some text =>
    start < stop ∧ text ≠ "" ∧ (⟨start, stop⟩ : Span).slice? source = some text

/-- The law of a move: what becomes of the position, and how that fits the answer. -/
structure Obeys (source : String) (old : Trail) (move : Move) (new : Trail) (answer : Answer) :
    Prop where
  /-- The position is between two characters of the source. -/
  isBoundary : Text.IsBoundary source.toList new.position
  le : new.position ≤ Text.utf8Size source.toList
  /-- Only going back to a mark makes it smaller. -/
  goesBack : new.position < old.position →
    move.goesBack = true ∧ new.session.cursor ∈ old.marks
  /-- A mark is where the session was. -/
  marks : ∀ mark ∈ new.marks, mark ∈ old.marks ∨ mark = old.session.cursor
  looks : ∀ step, move = .step step → step.looks = true → new = old
  takes : ∀ step, move = .step step → step.takes = true →
    Takes source old.position new.position answer.text?
  /-- What is looked for is found where some of its bytes are matched, and taken with them. -/
  sees : ∀ needle : Needle, move = .step (.sees needle.pattern) →
    answer = .flag (needle.size? old.session.cursor.rest).isSome
  moves : ∀ (needle : Needle) (label : String),
    move = .step (.take needle.pattern) ∨ move = .step (.expect needle.pattern label) →
      new.position = old.position + (needle.size? old.session.cursor.rest).getD 0
  longestRun : ∀ isMember, move = .step (.takeWhile isMember) →
    IsLongest source (Text.ConsistsOf isMember) old.position new.position
  longestBlanks : ∀ lineEnds, move = .step (.skipBlanks lineEnds) →
    IsLongest source (Text.ConsistsOf (if lineEnds then Text.isBlank else Text.isInlineBlank))
      old.position new.position
  longestWord : move = .step .takeWord →
    IsLongest source Text.IsWord old.position new.position

end Trail

/-! ## What one step does -/

section Step

variable {source : String} {session : Session} {step : Step}

/-- What a step takes at a place, if it takes something there. -/
def Step.taken? (c : Cursor) : Step → Option (List Char × Cursor)
  | .take pattern | .expect pattern _ => c.take? pattern
  | .takeWhile isMember => c.takeWhile? isMember
  | .takeWord => c.takeWord?
  | _ => none

/-- What a step takes is passed and not empty. -/
theorem Step.took_taken? (c : Cursor) (step : Step) : c.Took (step.taken? c) := by
  cases step with
  | take pattern => exact c.took_take? pattern
  | expect pattern label => exact c.took_take? pattern
  | takeWhile isMember => exact c.took_takeWhile? isMember
  | takeWord => exact c.took_takeWord?
  | _ => exact nofun

/-- A step that takes text moves past it and answers it. -/
theorem Session.step_of_takes (session : Session) (h : step.takes = true) :
    (session.step step).1 = session.after (step.taken? session.cursor) ∧
      (session.step step).2.text? =
        (step.taken? session.cursor).map fun taken => String.ofList taken.1 := by
  cases step with
  | take pattern =>
    refine ⟨rfl, ?_⟩
    show Answer.text? (.ofText? ((session.cursor.take? pattern).map _)) =
      (session.cursor.take? pattern).map _
    cases session.cursor.take? pattern <;> rfl
  | expect pattern label =>
    show (Session.step session (.expect pattern label)).1 =
        session.after (session.cursor.take? pattern) ∧
      _ = (session.cursor.take? pattern).map _
    rw [Session.step]
    cases session.cursor.take? pattern <;> exact ⟨rfl, rfl⟩
  | takeWhile isMember =>
    refine ⟨rfl, ?_⟩
    show Answer.text? (.ofText? ((session.cursor.takeWhile? isMember).map _)) =
      (session.cursor.takeWhile? isMember).map _
    cases session.cursor.takeWhile? isMember <;> rfl
  | takeWord =>
    refine ⟨rfl, ?_⟩
    show Answer.text? (.ofText? (session.cursor.takeWord?.map _)) =
      session.cursor.takeWord?.map _
    cases session.cursor.takeWord? <;> rfl
  | _ => cases h

/-- A step that only looks leaves the session as it is. -/
theorem Session.step_of_looks (session : Session) (h : step.looks = true) :
    (session.step step).1 = session := by
  cases step <;> first | rfl | cases h

/-- No step changes the source. -/
theorem Session.step_source : (session.step step).1.source = session.source := by
  by_cases htakes : step.takes = true
  · rw [(session.step_of_takes htakes).1]
    cases step.taken? session.cursor <;> rfl
  · cases step <;> first | rfl | exact absurd rfl htakes

/-- A step that expects something goes on as if it took it. -/
theorem Session.step_of_expect (session : Session) (pattern : Pattern) (label : String) :
    (session.step (.expect pattern label)).1 = session.after (session.cursor.take? pattern) :=
  (session.step_of_takes rfl).1

/-- What has been taken lies further on. -/
theorem Session.reaches_after {taken? : Option (List Char × Cursor)}
    (h : session.cursor.Took taken?) :
    session.cursor.Reaches (session.after taken?).cursor := by
  cases taken? with
  | none => exact .refl _
  | some taken => exact (h taken rfl).1.reaches

/-- Every step but going back moves on, or stays. -/
theorem Session.reaches_step (session : Session) (h : Move.goesBack (.step step) = false) :
    session.cursor.Reaches (session.step step).1.cursor := by
  by_cases htakes : step.takes = true
  · rw [(session.step_of_takes htakes).1]
    exact reaches_after (step.took_taken? session.cursor)
  · cases step with
    | skipBlanks lineEnds => exact session.cursor.reaches_skipBlanks lineEnds
    | reset => cases h
    | take | expect | takeWhile | takeWord => exact absurd rfl htakes
    | _ => exact .refl _

/-- Taking text keeps the law on texts. -/
theorem Trail.takes_after {taken? : Option (List Char × Cursor)}
    (hc : session.cursor.IsIn source.toList) (h : session.cursor.Took taken?) :
    Takes source session.cursor.position (session.after taken?).cursor.position
      (taken?.map fun taken => String.ofList taken.1) := by
  cases taken? with
  | none => rfl
  | some taken =>
    obtain ⟨hpass, hne⟩ := h taken rfl
    refine ⟨hpass.position_lt hne, ?_, hc.slice?_eq hpass⟩
    intro hempty
    exact hne (String.ofList_eq_empty_iff.1 hempty)

/-- A needle that is looked for moves the position by the bytes that it matches. -/
theorem Session.position_after_take? (needle : Needle) :
    (session.after (session.cursor.take? needle.pattern)).cursor.position =
      session.cursor.position + (needle.size? session.cursor.rest).getD 0 := by
  have htook := session.cursor.took_take? needle.pattern
  rw [needle.size?_eq]
  cases hpiece : needle.pattern.piece session.cursor.rest with
  | nil =>
    rw [take?, hpiece]
    rfl
  | cons x xs =>
    have hpos := x.utf8Size_pos
    rw [take?, hpiece] at htook ⊢
    rw [if_pos (by rw [Text.utf8Size_cons]; omega), Option.getD_some]
    exact (htook _ rfl).1.position_eq

/-- Taking a class of characters comes to where skipping it does. -/
theorem Session.cursor_after_takeWhile? (session : Session) (isMember : Char → Bool) :
    (session.after (session.cursor.takeWhile? isMember)).cursor =
      session.cursor.skipWhile isMember := by
  rw [skipWhile_eq_skip, takeWhile?]
  cases hrun : session.cursor.rest.takeWhile isMember with
  | nil => rfl
  | cons x xs =>
    show session.cursor.skipWhile isMember = _
    rw [skipWhile_eq_skip, hrun]

theorem Session.cursor_after_takeWord? (session : Session) :
    (session.after session.cursor.takeWord?).cursor =
      session.cursor.skip (Text.leadingWord session.cursor.rest).length := by
  rw [takeWord?, word?]
  cases Text.leadingWord session.cursor.rest <;> rfl

end Step

namespace Trail

variable {source : String} {trail : Trail}

/-- A mark after a step was there before, or it is where the step began. -/
theorem mem_marksAfter {step : Step} {mark : Cursor} (h : mark ∈ trail.marksAfter step) :
    mark ∈ trail.marks ∨ mark = trail.session.cursor := by
  cases step with
  | mark => exact (List.mem_cons.1 h).symm
  | _ => exact .inl h

/-- The mark that a session goes back to is one of them. -/
theorem marked_mem_marksAfter {step : Step} (h : trail.session.marked ∈ trail.marks) :
    (trail.session.step step).1.marked ∈ trail.marksAfter step := by
  by_cases htakes : step.takes = true
  · have hmarked : (trail.session.step step).1.marked = trail.session.marked := by
      rw [(trail.session.step_of_takes htakes).1]
      cases step.taken? trail.session.cursor <;> rfl
    rw [hmarked]
    cases step <;> first | exact h | cases htakes
  · cases step with
    | mark => exact List.mem_cons_self
    | take | expect | takeWhile | takeWord => exact absurd rfl htakes
    | _ => exact h

/-- Going back leads to a mark, or nowhere else. -/
theorem getD_marks (trail : Trail) (index : Nat) :
    trail.marks.getD index trail.session.cursor ∈ trail.marks ∨
      trail.marks.getD index trail.session.cursor = trail.session.cursor := by
  rw [List.getD_eq_getElem?_getD]
  cases hmark : trail.marks[index]? with
  | none => exact .inr rfl
  | some mark => exact .inl (List.mem_of_getElem? hmark)

theorem move_of_looks {step : Step} (h : step.looks = true) :
    (trail.move (.step step)).1 = trail := by
  have hsession := trail.session.step_of_looks h
  have hmarks : trail.marksAfter step = trail.marks := by
    cases step <;> first | rfl | cases h
  show Trail.mk (trail.session.step step).1 (trail.marksAfter step) = trail
  rw [hsession, hmarks]

/-- Every move leaves the session in its source. -/
theorem IsIn.move (h : trail.IsIn source) (move : Move) : (trail.move move).1.IsIn source := by
  cases move with
  | step step =>
    refine ⟨Session.step_source.trans h.source_eq, ?_, ?_, ?_⟩
    · by_cases hback : Move.goesBack (.step step) = true
      · cases step with
        | reset => exact h.marks_isIn _ h.marked_mem
        | _ => cases hback
      · exact h.cursor_isIn.of_reaches (trail.session.reaches_step (Bool.not_eq_true _ ▸ hback))
    · intro mark hmark
      rcases mem_marksAfter hmark with hold | rfl
      · exact h.marks_isIn mark hold
      · exact h.cursor_isIn
    · exact marked_mem_marksAfter h.marked_mem
  | revisit index =>
    refine ⟨h.source_eq, ?_, h.marks_isIn, h.marked_mem⟩
    show (trail.marks.getD index trail.session.cursor).IsIn source.toList
    rcases getD_marks trail index with hmark | hnone
    · exact h.marks_isIn _ hmark
    · rw [hnone]
      exact h.cursor_isIn

/-- All places that moves lead to are in the source. -/
theorem IsIn.after (h : trail.IsIn source) (moves : List Move) :
    (trail.after moves).IsIn source := by
  induction moves generalizing trail with
  | nil => exact h
  | cons move moves ih => exact ih (h.move move)

theorem isIn_start (source : String) : (start source).IsIn source where
  source_eq := rfl
  cursor_isIn := isIn_ofString source
  marks_isIn _ hmark := List.mem_singleton.1 hmark ▸ isIn_ofString source
  marked_mem := List.mem_singleton_self _

/-- Every move of a session that stands in its source obeys the law. -/
theorem IsIn.obeys (h : trail.IsIn source) (move : Move) :
    Obeys source trail move (trail.move move).1 (trail.move move).2 where
  isBoundary := (h.move move).cursor_isIn.isBoundary
  le := (h.move move).cursor_isIn.isBoundary.le
  goesBack hlt := by
    cases move with
    | step step =>
      by_cases hback : Move.goesBack (.step step) = true
      · cases step with
        | reset => exact ⟨rfl, h.marked_mem⟩
        | _ => cases hback
      -- A step that does not go back leads further on, so it cannot have moved towards the start.
      · obtain ⟨n, hn⟩ := trail.session.reaches_step
          (Bool.not_eq_true _ ▸ hback)
        have hle := trail.session.cursor.position_skip_le n
        rw [← hn] at hle
        exact absurd hlt (Nat.not_lt.2 hle)
    | revisit index =>
      rcases getD_marks trail index with hmark | hnone
      · exact ⟨rfl, hmark⟩
      · refine absurd hlt (Nat.not_lt.2 (Nat.le_of_eq ?_))
        exact congrArg Cursor.position hnone.symm
  marks mark hmark := by
    cases move with
    | step step => exact mem_marksAfter hmark
    | revisit index => exact .inl hmark
  looks step hstep hlooks := by
    subst hstep
    exact move_of_looks hlooks
  takes step hstep htakes := by
    subst hstep
    -- What is taken was said once for all steps (`step_of_takes`), so their kinds do not matter
    -- here.
    have htook := step.took_taken? trail.session.cursor
    obtain ⟨hsession, htext⟩ := trail.session.step_of_takes htakes
    show Takes source trail.session.cursor.position
      (trail.session.step step).1.cursor.position (trail.session.step step).2.text?
    rw [hsession, htext]
    exact takes_after h.cursor_isIn htook
  sees needle hstep := by
    subst hstep
    rw [needle.isSome_size?]
    rfl
  moves needle label hstep := by
    rcases hstep with rfl | rfl
    · exact Session.position_after_take? needle
    · have hexpect := trail.session.step_of_expect needle.pattern label
      show (trail.session.step (.expect needle.pattern label)).1.cursor.position = _
      rw [hexpect]
      exact Session.position_after_take? needle
  longestRun isMember hstep := by
    subst hstep
    have hlongest := h.cursor_isIn.isLongest_skipWhile isMember
    rwa [← Session.cursor_after_takeWhile?] at hlongest
  longestBlanks lineEnds hstep := by
    subst hstep
    exact h.cursor_isIn.isLongest_skipWhile _
  longestWord hstep := by
    subst hstep
    have hlongest := h.cursor_isIn.isLongest_word
    rwa [← Session.cursor_after_takeWord?] at hlongest

/-- Wherever moves from the start of a source have led, the session stands in the source and obeys
the law with the next move. -/
theorem obeys_after (source : String) (moves : List Move) (move : Move) :
    let trail := (start source).after moves
    trail.IsIn source ∧ Obeys source trail move (trail.move move).1 (trail.move move).2 := by
  have h := (isIn_start source).after moves
  exact ⟨h, h.obeys move⟩

end Trail

/-- Every position of a run of steps is between two characters of the source. -/
theorem Session.isBoundary_of_mem_run (source : String) (steps : List Step) :
    ∀ entry ∈ (start source).run steps, Text.IsBoundary source.toList entry.1 := by
  suffices hrun : ∀ trail : Trail, trail.IsIn source → ∀ entry ∈ trail.session.run steps,
      Text.IsBoundary source.toList entry.1 from hrun _ (Trail.isIn_start source)
  induction steps with
  | nil => exact fun _ _ => nofun
  | cons step steps ih =>
    intro trail h entry hentry
    have hnext := h.move (.step step)
    rcases List.mem_cons.1 hentry with rfl | hlater
    · exact hnext.cursor_isIn.isBoundary
    · exact ih _ hnext entry hlater

end Cursor

end Estree
