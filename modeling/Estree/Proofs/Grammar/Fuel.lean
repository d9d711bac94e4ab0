import Estree.Proofs.Grammar.Depth
import Estree.Proofs.Grammar.Frames

/-!
# Steps that are enough

`parseFuelled_eq_some`: sixteen steps for each byte of a text, and sixteen more, are enough to read
it, whatever the limit of levels is. The reading then never runs out of steps, and what it answers
is what the rules of the grammar say when nothing counts the steps.

Reading without such a count is a grammar that reads each production by its rule, and what the rule
opens in the same way (`ReadsByRule`). There is one such grammar and no other (`readsByRule_iff`):
what a production opens is further on in the text or, at the same place, of lower rank, so it is
settled by what comes below it.

> `steps p c`: the steps that a production may take, sixteen for each character left and its rank.
> `unfold_agrees_of_fuel`: with so many steps, more do not change the outcome.
> `entire`: the grammar in which each production has as many steps as it may take. It reads by the
> rules, as what a production opens takes fewer steps than it does.
> `ReadsByRule.agrees`: whatever reads by the rules agrees with the unfolded grammar where the steps
> are enough, by induction on the steps. So it is `entire`.

A count of steps is an artefact of writing the reader as a function. `entire` is free of it, and
statements about faults are shown of `entire` (`parseWithin_eq_parseBy`).
-/

namespace Estree

open Scan

/-- Where running out of steps is no excuse, the outcomes are the same. -/
theorem Scan.Agrees.eq {α : Type} {c : Cursor} {r r' : EStateM.Result Fault Cursor α}
    (h : Agrees .neverOut c r r') : r' = r := by
  cases r with
  | ok a c₁ => exact h.1
  | error fault c₁ =>
    rcases h with hexcused | ⟨-, heq⟩
    · exact hexcused.elim
    · exact heq

namespace Grammar

/-! ## Grammars that agree as far as the steps go -/

/-- The steps that a production may take where it stands. -/
def steps (p : Production) (c : Cursor) : Nat :=
  16 * c.rest.length + rank p

/-- Two grammars that agree on all productions of fewer steps agree on this one. -/
theorem step_agrees_of_steps {g g' : Grammar} {fuel : Nat}
    (h : ∀ (depth : Nat) (q : Production) (c₁ : Cursor), steps q c₁ < fuel →
      Agrees .neverOut c₁ (g depth q c₁) (g' depth q c₁))
    {depth : Nat} {p : Production} {c : Cursor} (hfuel : steps p c < fuel + 1) :
    Agrees .neverOut c (g.step depth p c) (g'.step depth p c) := by
  unfold steps at hfuel
  refine step_agrees (fun q c₁ hopens => h depth q c₁ ?_) fun q hnests => ?_
  · have hlength := hopens.reaches.length_le
    have hrank := rank_le q
    unfold steps
    rcases hopens.lower with hlt | ⟨hlower, -⟩ <;> omega
  · cases depth with
    | zero => exact Or.inr ⟨nofun, rfl⟩
    | succ below =>
      have hrank := hnests.rank_lt
      refine h below q c ?_
      unfold steps
      omega

/-- More steps than a text needs do not change how it is read. -/
theorem unfold_agrees_of_fuel (fuel : Nat) : ∀ {fuel' depth : Nat} {p : Production} {c : Cursor},
    steps p c < fuel → fuel ≤ fuel' →
      Agrees .neverOut c (unfold fuel depth p c) (unfold fuel' depth p c) := by
  induction fuel with
  | zero => exact fun hfuel => absurd hfuel (Nat.not_lt_zero _)
  | succ fuel ih =>
    intro fuel' depth p c hfuel hmore
    obtain ⟨more, rfl⟩ := Nat.exists_eq_add_of_le' (Nat.le_of_add_left_le hmore)
    exact step_agrees_of_steps (fun _ _ _ h => ih h (Nat.le_of_succ_le_succ hmore)) hfuel

/-- A sequence may be given the steps for a longer text. -/
theorem unfold_sequence_eq {length depth : Nat} {c : Cursor} (h : c.rest.length ≤ length) :
    unfold (fuel length) depth (.sequence false) c =
      unfold (fuel c.rest.length) depth (.sequence false) c := by
  refine (unfold_agrees_of_fuel _ ?_ ?_).eq
  · simp only [fuel, steps, rank]
    omega
  · simp only [fuel]
    omega

/-! ## Reading without a count of steps -/

/-- Every production is read by its rule, and so is all that it opens. -/
def ReadsByRule (g : Grammar) : Prop :=
  ∀ depth p c, g depth p c = g.step depth p c

/-- The grammar with as many steps for each production as it may take. -/
def entire : Grammar := fun depth p c =>
  unfold (steps p c + 1) depth p c

/-- With enough steps the unfolded grammar is the entire one. -/
theorem unfold_eq_entire {fuel depth : Nat} {p : Production} {c : Cursor} (h : steps p c < fuel) :
    unfold fuel depth p c = entire depth p c :=
  (unfold_agrees_of_fuel _ (Nat.lt_succ_self _) h).eq

/-- The entire grammar reads by the rules. -/
theorem readsByRule_entire : ReadsByRule entire := by
  intro depth p c
  -- One step is taken for the rule; what it opens has as many as before, which are enough.
  have hstep :
      Agrees .neverOut c (step (unfold (steps p c)) depth p c) (step entire depth p c) := by
    refine step_agrees_of_steps (fun depth q c₁ h => ?_) (Nat.lt_succ_self _)
    rw [← unfold_eq_entire h]
    exact unfold_agrees_of_fuel _ h (Nat.le_refl _)
  exact hstep.eq.symm

/-- What reads by the rules agrees with the unfolded grammar where the steps are enough. -/
theorem ReadsByRule.agrees {g : Grammar} (hg : g.ReadsByRule) (fuel : Nat) :
    ∀ (depth : Nat) (p : Production) (c : Cursor), steps p c < fuel →
      Agrees .neverOut c (unfold fuel depth p c) (g depth p c) := by
  induction fuel with
  | zero => exact fun _ _ _ hfuel => absurd hfuel (Nat.not_lt_zero _)
  | succ fuel ih =>
    intro depth p c hfuel
    rw [hg depth p c]
    exact step_agrees_of_steps ih hfuel

/-- There is exactly one way to read every production by its rule. -/
theorem readsByRule_iff {g : Grammar} : g.ReadsByRule ↔ g = entire := by
  constructor
  · intro hg
    funext depth p c
    exact (hg.agrees _ depth p c (Nat.lt_succ_self _)).eq
  · rintro rfl
    exact readsByRule_entire

end Grammar

/-! ## Whole texts -/

/-- Reads from the cursor to the end of the text as a grammar says. -/
def Scan.programBy (g : Grammar) (maxDepth : Nat) : Scan Expr :=
  programOf fun _ => g maxDepth (.sequence false)

namespace Expr

/-- Reads a text within limits as a grammar says. -/
def parseBy (g : Grammar) (limits : Limits) (source : String) : Except SyntaxError Expr :=
  match limits.exceeded? source with
  | some limit => .error ((⟨.tooLong limit, limit⟩ : Fault).toError source)
  | none => report source (Scan.programBy g limits.maxDepth (.ofString source))

/-- Reads a text within limits with so many steps, of which every production takes one before it
hands on the rest; nothing if they run out. -/
def parseFuelled (fuel : Nat) (limits : Limits) (source : String) :
    Option (Except SyntaxError Expr) :=
  match limits.exceeded? source with
  | some limit => some (.error ((⟨.tooLong limit, limit⟩ : Fault).toError source))
  | none =>
    match Scan.programBy (Grammar.unfold fuel) limits.maxDepth (.ofString source) with
    | .ok e _ => some (.ok e)
    | .error fault _ =>
      if fault.cause = .outOfFuel then none else some (.error (fault.toError source))

end Expr

namespace Scan

/-- With steps enough the text is read without a count of steps, and no fault is about steps. -/
theorem programBy_agrees {g : Grammar} (hg : g.ReadsByRule) {fuel maxDepth : Nat} {c : Cursor}
    (h : 16 * (c.rest.length + 1) ≤ fuel) :
    Agrees .neverOut c (programBy (Grammar.unfold fuel) maxDepth c) (programBy g maxDepth c) := by
  refine programOf_agrees Excuses.neverOut_unexpected
    (hg.agrees fuel maxDepth (.sequence false) c ?_)
  simp only [Grammar.steps, Grammar.rank]
  omega

end Scan

namespace Expr

/-- A text is read as by a grammar that agrees with the unfolded one on it. -/
theorem parseFuelled_of_agrees {g : Grammar} {fuel : Nat} {limits : Limits} {source : String}
    (h : Agrees .neverOut (.ofString source)
      (programBy (Grammar.unfold fuel) limits.maxDepth (.ofString source))
      (programBy g limits.maxDepth (.ofString source))) :
    parseFuelled fuel limits source = some (parseBy g limits source) := by
  unfold parseFuelled parseBy
  cases limits.exceeded? source with
  | some limit => rfl
  | none =>
    dsimp only
    cases hrun : programBy (Grammar.unfold fuel) limits.maxDepth (.ofString source) with
    | ok e c =>
      rw [hrun] at h
      rw [h.1]
      rfl
    | error fault c =>
      rw [hrun] at h
      obtain ⟨hfault, hrule⟩ := h.resolve_left id
      rw [hrule]
      exact if_neg hfault

/-- The steps that a text is given by itself are enough. -/
theorem parseWithin_eq_parseBy {g : Grammar} (hg : g.ReadsByRule) (limits : Limits)
    (source : String) : parseWithin limits source = parseBy g limits source := by
  have hagrees : Agrees .neverOut (.ofString source)
      (program limits.maxDepth (.ofString source))
      (programBy g limits.maxDepth (.ofString source)) := by
    refine programOf_agrees Excuses.neverOut_unexpected (hg.agrees _ _ _ _ ?_)
    simp only [Grammar.steps, Grammar.rank, Grammar.fuel]
    omega
  unfold parseWithin parseBy
  cases limits.exceeded? source with
  | some limit => rfl
  | none =>
    rw [hagrees.eq]
    show (match program limits.maxDepth (.ofString source) with
      | .ok e _ => Except.ok e
      | .error fault _ => .error (fault.toError source)) = _
    cases program limits.maxDepth (.ofString source) <;> rfl

/-- Sixteen steps for each byte of the text and sixteen more are enough, whatever the limits: the
reading does not run out of them, and answers what reading within the limits answers, which is what
the rules of the grammar say when nothing counts the steps. -/
theorem parseFuelled_eq_some {fuel : Nat} {limits : Limits} {source : String}
    (h : 16 * (Text.utf8Size source.toList + 1) ≤ fuel) :
    parseFuelled fuel limits source = some (parseWithin limits source) ∧
      ∃ g : Grammar, (∀ g' : Grammar, g'.ReadsByRule ↔ g' = g) ∧
        parseWithin limits source = parseBy g limits source := by
  have hbytes : source.toList.length ≤ Text.utf8Size source.toList := Text.length_le_utf8Size _
  have hfuel : 16 * (source.toList.length + 1) ≤ fuel := by omega
  have hrules := Grammar.readsByRule_entire
  have hwithin := parseWithin_eq_parseBy hrules limits source
  refine ⟨?_, Grammar.entire, fun g' => Grammar.readsByRule_iff, hwithin⟩
  rw [hwithin]
  exact parseFuelled_of_agrees (programBy_agrees hrules hfuel)

/-- A text with brackets that are not closed, and levels without end. -/
theorem parseFuelled_eq_some_unclosed :
    16 * (Text.utf8Size "[new a?.(b".toList + 1) ≤ 176 ∧
      parseFuelled 176 ⟨none, 18446744073709551615⟩ "[new a?.(b" =
        some (parseWithin ⟨none, 18446744073709551615⟩ "[new a?.(b") ∧
      ∃ g : Grammar, (∀ g' : Grammar, g'.ReadsByRule ↔ g' = g) ∧
        parseWithin ⟨none, 18446744073709551615⟩ "[new a?.(b" =
          parseBy g ⟨none, 18446744073709551615⟩ "[new a?.(b" :=
  ⟨by decide, parseFuelled_eq_some (by decide)⟩

end Expr

end Estree
