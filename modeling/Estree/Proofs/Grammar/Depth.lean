import Mathlib.Data.Nat.Find
import Estree.Proofs.Grammar.Agreement

/-!
# The limit of levels

`parseWithin_threshold`: with fewer levels than a text needs, reading it ends in the fault that it
is nested too deeply; with as many or more, the result is always the same, and never this fault. A
text needs at most four levels for each of its bytes, and four more.

Both halves compare the grammar with itself. With more levels it reads the same, unless it has ended
for want of levels (`unfold_agrees_of_le`); and with four levels for every character it never ends
so (`unfold_neverDeep`).

The least number of levels that is enough is found among those that are (`Nat.find`): four for each
byte are, and if some are enough then so are more. Below it every number of levels is wanting, and
from it on all outcomes are one and the same.

What a caller is told is the message of the fault. No other fault has this message, so the outcome
of the reading can be told from it (`isTooDeep_iff`).
-/

namespace Estree

open Scan

/-- Only a want of levels is an excuse. -/
def Excuses.wantOfLevels : Excuses where
  common _ := True
  excused := (· = .tooDeep)
  common_of_production _ _ := trivial

/-- Nothing is an excuse, and there is no want of levels. -/
def Excuses.neverDeep : Excuses where
  common := (· ≠ .tooDeep)
  excused _ := False
  common_of_production := by
    rintro _ hproduction rfl
    cases hproduction

/-- A character that is not expected is no want of levels. -/
theorem Excuses.neverDeep_unexpected (y : Char) : neverDeep.common (.unexpected y) := by
  rintro ⟨⟩

/-- The outcome is the fault that a level was wanting. -/
def Scan.IsTooDeep {α : Type} (r : EStateM.Result Fault Cursor α) : Prop :=
  ∃ fault c, r = .error fault c ∧ fault.cause = .tooDeep

/-- With no other excuse outcomes are the same, or a level was wanting. -/
theorem Scan.Agrees.eq_or_isTooDeep {α : Type} {c : Cursor}
    {r r' : EStateM.Result Fault Cursor α} (h : Agrees .wantOfLevels c r r') :
    r = r' ∨ IsTooDeep r := by
  cases r with
  | ok a c₁ => exact Or.inl h.1.symm
  | error fault c₁ =>
    rcases h with hdeep | ⟨-, rfl⟩
    · exact Or.inr ⟨fault, c₁, rfl, hdeep⟩
    · exact Or.inl rfl

/-- Without an excuse no level was wanting. -/
theorem Scan.Agrees.not_isTooDeep {α : Type} {c : Cursor}
    {r r' : EStateM.Result Fault Cursor α} (h : Agrees .neverDeep c r r') : ¬IsTooDeep r := by
  rintro ⟨fault, c₁, rfl, hdeep⟩
  rcases h with hexcused | ⟨hcommon, -⟩
  · exact hexcused
  · exact hcommon hdeep

namespace Grammar

/-- More levels change nothing but a want of levels. -/
theorem unfold_agrees_of_le (fuel : Nat) : ∀ {depth depth' : Nat}, depth ≤ depth' →
    ∀ (p : Production) (c : Cursor),
      Agrees .wantOfLevels c (unfold fuel depth p c) (unfold fuel depth' p c) := by
  induction fuel with
  | zero => exact fun _ _ _ => Or.inr ⟨trivial, rfl⟩
  | succ fuel ih =>
    intro depth depth' hdepth p c
    refine step_agrees (fun q c₁ _ => ih hdepth q c₁) fun q _ => ?_
    cases depth with
    | zero => exact Or.inl rfl
    | succ depth =>
      obtain ⟨below, rfl⟩ := Nat.exists_eq_add_of_le' (Nat.le_of_add_left_le hdepth)
      exact ih (Nat.le_of_succ_le_succ hdepth) q c

/-- Four levels for every character of the text are enough. -/
theorem unfold_neverDeep (fuel : Nat) : ∀ {depth : Nat} {p : Production} {c : Cursor},
    4 * c.rest.length + levels p ≤ depth →
      Agrees .neverDeep c (unfold fuel depth p c) (unfold fuel depth p c) := by
  induction fuel with
  | zero => exact fun _ => Or.inr ⟨nofun, rfl⟩
  | succ fuel ih =>
    intro depth p c hdepth
    refine step_agrees (fun q c₁ hopens => ih ?_) fun q hnests => ?_
    · have hlength := hopens.reaches.length_le
      have hlevels := levels_le q
      rcases hopens.lower with hlt | ⟨-, hlower⟩ <;> omega
    · have hlevels := hnests.levels_lt
      obtain ⟨below, rfl⟩ : ∃ below, depth = below + 1 := ⟨depth - 1, by omega⟩
      exact ih (by omega)

end Grammar

namespace Scan

/-- With more levels a text is read the same, unless a level was wanting. -/
theorem program_eq_or_isTooDeep {depth depth' : Nat} (h : depth ≤ depth') (c : Cursor) :
    program depth c = program depth' c ∨ IsTooDeep (program depth c) :=
  (program_agrees (fun _ => trivial) (Grammar.unfold_agrees_of_le _ h _ c)).eq_or_isTooDeep

/-- Four levels for each character, and four more, are enough. -/
theorem not_isTooDeep_program {depth : Nat} {c : Cursor} (h : 4 * (c.rest.length + 1) ≤ depth) :
    ¬IsTooDeep (program depth c) :=
  (program_agrees Excuses.neverDeep_unexpected (Grammar.unfold_neverDeep _ h)).not_isTooDeep

end Scan

/-- No other fault has the wording of a want of levels; four letters tell it from the others. -/
theorem Cause.eq_tooDeep_of_message {cause : Cause} (h : cause.message = Cause.tooDeep.message) :
    cause = .tooDeep := by
  have hstart : cause.message.toList.take 4 = "expr".toList := by
    rw [h]
    decide
  cases cause with
  | tooDeep => rfl
  | _ =>
    unfold message at hstart
    simp at hstart

namespace Expr

/-- What a reading to the end of the text says to a caller. -/
def report (source : String) : EStateM.Result Fault Cursor Expr → Except SyntaxError Expr
  | .ok e _ => .ok e
  | .error fault _ => .error (fault.toError source)

/-- A caller is told of an error for a fault only. -/
theorem exists_fault_of_report {source : String} {r : EStateM.Result Fault Cursor Expr}
    {error : SyntaxError} (h : report source r = .error error) :
    ∃ fault c, r = .error fault c ∧ error = fault.toError source := by
  cases r with
  | ok e c => cases h
  | error fault c =>
    cases h
    exact ⟨fault, c, rfl, rfl⟩

/-- Without a limit of length the reader reports what the program has come to. -/
theorem parseWithin_eq_report (depth : Nat) (source : String) :
    parseWithin ⟨none, depth⟩ source = report source (Scan.program depth (.ofString source)) := by
  show (match Scan.program depth (.ofString source) with
    | .ok e _ => Except.ok e
    | .error fault _ => .error (fault.toError source)) = _
  cases Scan.program depth (.ofString source) <;> rfl

/-- A caller can tell a want of levels from all other outcomes by its wording. -/
theorem isTooDeep_iff {depth : Nat} {source : String} :
    IsTooDeep (program depth (.ofString source)) ↔ ∃ error,
      parseWithin ⟨none, depth⟩ source = .error error ∧
        error.message = "expression nested too deeply" := by
  rw [parseWithin_eq_report]
  constructor
  · rintro ⟨fault, c, hrun, hcause⟩
    refine ⟨fault.toError source, ?_, ?_⟩
    · rw [hrun]
      rfl
    · show fault.cause.message = _
      rw [hcause]
      rfl
  · rintro ⟨error, herror, hmessage⟩
    obtain ⟨fault, c, hrun, rfl⟩ := exists_fault_of_report herror
    exact ⟨fault, c, hrun, Cause.eq_tooDeep_of_message hmessage⟩

/-- For every text there is a number of levels that decides: from it on the result is always the
same, below it the text is nested too deeply. -/
theorem parseWithin_threshold (source : String) :
    ∃ least ≤ 4 * (Text.utf8Size source.toList + 1), ∃ result : Except SyntaxError Expr,
      (∀ depth, least ≤ depth → parseWithin ⟨none, depth⟩ source = result) ∧
      (∀ error, result = .error error → error.message ≠ "expression nested too deeply") ∧
      ∀ depth < least, ∃ error, parseWithin ⟨none, depth⟩ source = .error error ∧
        error.message = "expression nested too deeply" := by
  classical
  have hbytes : source.toList.length ≤ Text.utf8Size source.toList := Text.length_le_utf8Size _
  have henough : ¬IsTooDeep (program (4 * (Text.utf8Size source.toList + 1)) (.ofString source)) :=
    not_isTooDeep_program (Nat.mul_le_mul_left 4 (Nat.succ_le_succ hbytes))
  have hexists : ∃ depth, ¬IsTooDeep (program depth (.ofString source)) := ⟨_, henough⟩
  refine ⟨Nat.find hexists, Nat.find_min' hexists henough,
    parseWithin ⟨none, Nat.find hexists⟩ source, ?_, ?_, ?_⟩
  · intro depth hdepth
    rcases program_eq_or_isTooDeep hdepth (.ofString source) with heq | hdeep
    · rw [parseWithin_eq_report, parseWithin_eq_report, heq]
    · exact absurd hdeep (Nat.find_spec hexists)
  · intro error herror hmessage
    exact Nat.find_spec hexists (isTooDeep_iff.2 ⟨error, herror, hmessage⟩)
  · intro depth hdepth
    exact isTooDeep_iff.1 (not_not.1 (Nat.find_min hexists hdepth))

end Expr

end Estree
