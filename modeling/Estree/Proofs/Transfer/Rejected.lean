import Mathlib.Data.List.TakeWhile
import Estree.Proofs.Cursor.Taken
import Estree.Proofs.Grammar.Depth
import Estree.Proofs.Grammar.Residue
import Estree.Proofs.Transfer.Ends

/-!
# Rejected suffixes

`parseWithin_before_unexpected`: if a text is refused at a character that is not expected there, the
text before this character is an expression, unless it is blank. It is read with the same levels as
the tree that had been read when the character was met.

No production raises this fault (`unfold_neverUnexpected`), so it is about what the reading of the
sequence has left. What the sequence has read is then read as well where the text ends before the
character, as the end of a text stops whatever is read (`Derives.elsewhere`).

> `program_eq_unexpected`: the fault is at the first character behind what the sequence has read.
> `Derives.readsWithin`: the text before it, as a text of its own, is read as the same tree.

A fault that is only known by its message has to be told from the other ones first: no other cause
has a message that begins alike (`Cause.eq_unexpected_of_message`).
-/

namespace Estree

open Scan Text

/-- No other fault has a wording that begins so; three letters tell it from the others. -/
theorem Cause.eq_unexpected_of_message {cause : Cause}
    (h : "unexpected character".toList <+: cause.message.toList) : ∃ y, cause = .unexpected y := by
  obtain ⟨rest, hrest⟩ := h
  have hstart : cause.message.toList.take 3 = "une".toList := by
    rw [← hrest]
    rfl
  cases cause with
  | unexpected y => exact ⟨y, rfl⟩
  | _ =>
    unfold message at hstart
    simp at hstart

/-! ## What productions raise -/

/-- Nothing is an excuse, and no character is unexpected. -/
def Excuses.neverUnexpected : Excuses where
  common cause := ∀ y, cause ≠ .unexpected y
  excused _ := False
  common_of_production := by
    rintro _ hproduction y rfl
    cases hproduction

namespace Grammar

/-- A production is read again in the same way, and no character is unexpected meanwhile. -/
theorem unfold_neverUnexpected (fuel maxDepth : Nat) (p : Production) (c : Cursor) :
    Agrees .neverUnexpected c (unfold fuel maxDepth p c) (unfold fuel maxDepth p c) :=
  unfold_agrees_self (by intro _ h; cases h) (by intro _ h; cases h) fuel maxDepth p c

end Grammar

namespace Scan

/-- A character that is not expected comes after the sequence and blanks. -/
theorem program_eq_unexpected {maxDepth : Nat} {c c' : Cursor} {fault : Fault} {y : Char}
    (h : program maxDepth c = .error fault c') (hcause : fault.cause = .unexpected y) :
    ∃ e? c₁, Grammar.unfold (Grammar.fuel c.rest.length) maxDepth (.sequence false) c = .ok e? c₁ ∧
      c₁.pastBlanks.rest.head? = some y ∧ c₁.pastBlanks.position = fault.offset := by
  rw [program, programOf, ahead_bind] at h
  have hnever := Grammar.unfold_neverUnexpected (Grammar.fuel c.rest.length) maxDepth
    (.sequence false) c
  cases hrun : Grammar.unfold (Grammar.fuel c.rest.length) maxDepth (.sequence false) c with
  | error fault₁ c₁ =>
    rw [bind_error hrun] at h
    cases h
    rw [hrun] at hnever
    exact absurd hcause ((hnever.resolve_left id).1 y)
  | ok e? c₁ =>
    rw [bind_run hrun, skipBlanks_bind, ahead_bind] at h
    refine ⟨e?, c₁, rfl, ?_⟩
    cases hrest : c₁.pastBlanks.rest with
    | nil =>
      rw [hrest] at h
      cases e? <;> cases h
      cases hcause
    | cons x xs =>
      rw [hrest] at h
      cases e? <;> cases h <;> cases hcause <;> exact ⟨rfl, rfl⟩

end Scan

namespace Grammar

/-- What a sequence has read is read as a text of its own, with the blanks after it or without. -/
theorem Derives.readsWithin {depth : Nat} {source : String} {e : Expr} {c : Cursor}
    {piece : List Char} (h : Derives depth (.sequence false) (.ofString source) (some e) c)
    (hpasses : (Cursor.ofString source).Passes piece c) :
    ReadsWithin depth (String.ofList (piece ++ c.blanks)) e := by
  have hrest : (Cursor.ofString (String.ofList (piece ++ c.blanks))).rest = piece ++ c.blanks :=
    String.toList_ofList
  have hblanks : ((Cursor.ofString _).skip piece.length).rest = c.blanks :=
    Cursor.skip_length_rest hrest
  have hfollows : Follows true c.rest c.blanks := by
    have hblank : Follows true _ _ :=
      (follows_nil c.pastBlanks.rest).blanks c.isBlank_of_mem_blanks
    rwa [← c.passes_blanks.rest_eq, List.append_nil] at hblank
  rw [← hblanks] at hfollows
  refine ⟨_, (h.elsewhere hpasses (Cursor.passes_skip hrest) rfl hfollows).1, ?_⟩
  rw [Cursor.pastBlanks_rest, hblanks]
  exact List.dropWhile_eq_nil_iff.2 c.isBlank_of_mem_blanks

end Grammar

/-! ## Whole texts -/

namespace Expr

/-- Where a text is refused for a character that is not expected there, the text before it is blank,
or it is read with as many levels as what the sequence of the whole text has been read as. -/
theorem parseWithin_before_unexpected {depth : Nat} {source : String} {error : SyntaxError}
    (herror : parseWithin ⟨none, depth⟩ source = .error error)
    (hmessage : "unexpected character".toList <+: error.message.toList) :
    ∃ before, (⟨0, error.offset⟩ : Span).slice? source = some before ∧
      ((∀ x ∈ before.toList, isBlank x = true) ∨
        ∃ e c, parseWithin ⟨none, depth⟩ before = .ok e ∧
          Grammar.unfold (Grammar.fuel source.toList.length) depth (.sequence false)
            (.ofString source) = .ok (some e) c ∧
          c.pastBlanks.position = error.offset ∧
          ∃ y ∈ c.pastBlanks.rest.head?, error.message = (Cause.unexpected y).message) := by
  rw [parseWithin_eq_report] at herror
  cases hrun : program depth (.ofString source) with
  | ok e c =>
    rw [hrun] at herror
    cases herror
  | error fault c =>
    rw [hrun] at herror
    cases herror
    obtain ⟨y, hcause⟩ := Cause.eq_unexpected_of_message hmessage
    obtain ⟨e?, c₁, hsequence, hhead, hoffset⟩ := program_eq_unexpected hrun hcause
    have hderives := Grammar.unfold_isSound _ hsequence
    obtain ⟨piece, hpiece⟩ := hderives.reaches.exists_passes
    have hbefore : (Cursor.ofString source).Passes (piece ++ c₁.blanks) c₁.pastBlanks :=
      hpiece.trans c₁.passes_blanks
    refine ⟨String.ofList (piece ++ c₁.blanks), ?_, ?_⟩
    · have hslice := (Cursor.isIn_ofString source).slice?_eq hbefore
      rwa [hoffset] at hslice
    · cases e? with
      | none =>
        -- Nothing has been read, so only blanks have been passed.
        obtain ⟨blanks, hblanks, hall⟩ := hderives.accounts
        have heq : piece = blanks :=
          List.append_cancel_right (hpiece.rest_eq.symm.trans hblanks)
        rw [String.toList_ofList, heq]
        refine Or.inl fun x hx => ?_
        rcases List.mem_append.1 hx with hx | hx
        · exact hall x hx
        · exact c₁.isBlank_of_mem_blanks x hx
      | some e =>
        refine Or.inr ⟨e, c₁, ?_, hsequence, hoffset, y, hhead, ?_⟩
        · exact parseWithin_eq_ok_of_readsWithin (hderives.readsWithin hpiece) rfl (Nat.le_refl _)
        · show fault.cause.message = _
          rw [hcause]

/-- A word after a call is not expected; without it the call is read. -/
theorem parseWithin_before_word : ∃ error e, parseWithin ⟨none, 12⟩ "f() x" = .error error ∧
    "unexpected character".toList <+: error.message.toList ∧ error.offset = 4 ∧
    parseWithin ⟨none, 12⟩ "f() " = .ok e ∧
    ∃ before, (⟨0, error.offset⟩ : Span).slice? "f() x" = some before ∧
      ((∀ x ∈ before.toList, isBlank x = true) ∨
        ∃ e c, parseWithin ⟨none, 12⟩ before = .ok e ∧
          Grammar.unfold (Grammar.fuel "f() x".toList.length) 12 (.sequence false)
            (.ofString "f() x") = .ok (some e) c ∧
          c.pastBlanks.position = error.offset ∧
          ∃ y ∈ c.pastBlanks.rest.head?, error.message = (Cause.unexpected y).message) := by
  have hcheck : (match parseWithin ⟨none, 12⟩ "f() x", parseWithin ⟨none, 12⟩ "f() " with
      | .error error, .ok _ => error.message == "unexpected character 'x'" && error.offset == 4
      | _, _ => false) = true := by
    decide +kernel
  split at hcheck
  next error e herror hparse =>
    obtain ⟨hmessage, hoffset⟩ := Bool.and_eq_true_iff.1 hcheck
    have hstart : "unexpected character".toList <+: error.message.toList := by
      rw [eq_of_beq hmessage]
      decide
    exact ⟨error, e, herror, hstart, eq_of_beq hoffset, hparse,
      parseWithin_before_unexpected herror hstart⟩
  next => cases hcheck

end Expr

end Estree
