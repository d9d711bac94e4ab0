import Estree.Proofs.Grammar.Completeness
import Estree.Proofs.Grammar.Soundness

/-!
# Texts that are read as expressions

A text is an expression by the grammar if a derivation reaches its end. Whatever is read within some
limits is one (`reads_of_parseWithin_eq_ok`), and it is read as soon as the limits are wide enough
for its length (`parseWithin_eq_ok_of_reads`), or for the levels of the derivation
(`parseWithin_eq_ok_of_readsWithin`).

So a statement about accepted texts is first shown of derivations, and these four lemmas carry it
over to the reader and back. Four levels for each byte and four more are always wide enough, as no
production opens more than four levels before it takes a character.
-/

namespace Estree

/-- The grammar reads the text as this expression, to its end, with so many levels. -/
def Grammar.ReadsWithin (depth : Nat) (source : String) (e : Expr) : Prop :=
  ∃ c', Derives depth (.sequence false) (.ofString source) (some e) c' ∧ c'.pastBlanks.rest = []

/-- The grammar reads the text as this expression, to its end. -/
def Grammar.Reads (source : String) (e : Expr) : Prop :=
  ∃ depth, ReadsWithin depth source e

namespace Scan

/-- What is read from a cursor to the end of the text. -/
theorem program_eq_ok {maxDepth : Nat} {c c' : Cursor} {e : Expr}
    (h : program maxDepth c = .ok e c') :
    ∃ c₁, Grammar.Derives maxDepth (.sequence false) c (some e) c₁ ∧ c₁.pastBlanks.rest = [] := by
  rw [program, programOf, ahead_bind] at h
  obtain ⟨e?, c₁, he, h⟩ := bind_eq_ok.1 h
  rw [skipBlanks_bind, ahead_bind] at h
  cases hrest : c₁.pastBlanks.rest with
  | nil =>
    rw [hrest] at h
    cases e? with
    | none => exact (fail_ne_ok.1 h).elim
    | some e₁ =>
      obtain ⟨rfl, rfl⟩ := pure_eq_ok.1 h
      exact ⟨c₁, Grammar.unfold_isSound _ he, hrest⟩
  | cons x xs =>
    rw [hrest] at h
    cases e? <;> exact (fail_ne_ok.1 h).elim

/-- A sequence to the end of the text, if the levels suffice, is what the program reads. -/
theorem program_run {maxDepth used : Nat} {c c' : Cursor} {e : Expr}
    (he : Grammar.Derives used (.sequence false) c (some e) c') (hend : c'.pastBlanks.rest = [])
    (hdepth : used ≤ maxDepth ∨ 4 * (c.rest.length + 1) ≤ maxDepth) :
    program maxDepth c = .ok e c'.pastBlanks := by
  have haffords :
      Grammar.Affords (Grammar.fuel c.rest.length) maxDepth used (.sequence false) c := by
    refine ⟨?_, hdepth⟩
    simp only [Grammar.fuel, Grammar.rank]
    omega
  rw [program, programOf, ahead_bind, bind_run (he.unfold_eq_ok haffords), skipBlanks_bind,
    ahead_bind, hend]
  rfl

end Scan

namespace Expr

/-- Within its limits a text is read as the program reads it. -/
theorem parseWithin_eq_ok {limits : Limits} {source : String} {e : Expr} {c : Cursor}
    (hlength : limits.exceeded? source = none)
    (hrun : Scan.program limits.maxDepth (.ofString source) = .ok e c) :
    parseWithin limits source = .ok e := by
  have hrun' : (Scan.program limits.maxDepth).run (.ofString source) = .ok e c := hrun
  rw [parseWithin, hlength]
  dsimp only
  rw [hrun']

/-- Whatever is read within some limits, the grammar reads with these levels. -/
theorem readsWithin_of_parseWithin_eq_ok {limits : Limits} {source : String} {e : Expr}
    (h : parseWithin limits source = .ok e) : Grammar.ReadsWithin limits.maxDepth source e := by
  rw [parseWithin] at h
  split at h
  next => cases h
  next =>
    split at h
    next hrun =>
      cases h
      exact Scan.program_eq_ok hrun
    next => cases h

/-- Whatever is read within some limits, the grammar reads. -/
theorem reads_of_parseWithin_eq_ok {limits : Limits} {source : String} {e : Expr}
    (h : parseWithin limits source = .ok e) : Grammar.Reads source e :=
  ⟨_, readsWithin_of_parseWithin_eq_ok h⟩

/-- Whatever the grammar reads is read within limits that leave as many levels. -/
theorem parseWithin_eq_ok_of_readsWithin {limits : Limits} {source : String} {e : Expr}
    {depth : Nat} (h : Grammar.ReadsWithin depth source e)
    (hlength : limits.exceeded? source = none) (hdepth : depth ≤ limits.maxDepth) :
    parseWithin limits source = .ok e := by
  obtain ⟨c', he, hend⟩ := h
  exact parseWithin_eq_ok hlength (Scan.program_run he hend (Or.inl hdepth))

/-- Whatever the grammar reads is read within limits that are wide enough for the text. -/
theorem parseWithin_eq_ok_of_reads {limits : Limits} {source : String} {e : Expr}
    (h : Grammar.Reads source e) (hlength : limits.exceeded? source = none)
    (hdepth : 4 * (Text.utf8Size source.toList + 1) ≤ limits.maxDepth) :
    parseWithin limits source = .ok e := by
  obtain ⟨_, c', he, hend⟩ := h
  have hbytes : source.toList.length ≤ Text.utf8Size source.toList := Text.length_le_utf8Size _
  have hdepth' : 4 * (source.toList.length + 1) ≤ limits.maxDepth := by omega
  exact parseWithin_eq_ok hlength (Scan.program_run he hend (Or.inr hdepth'))

end Expr

end Estree
