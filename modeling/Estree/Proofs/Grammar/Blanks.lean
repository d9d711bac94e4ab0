import Estree.Proofs.Grammar.Depth
import Estree.Proofs.Grammar.Fuel
import Estree.Proofs.Grammar.Likeness

/-!
# Which blanks a text has does not matter

`parseWithin_reblanked`: of a run of blanks it matters only that there is one, and whether it has a
line end. The reading of a text and the reading of the text with other runs keep step. They may rest
within a run, where the blanks of a line have been passed; what is left are then again such runs.

The texts differ in length, and so do the numbers of steps that their readings are given; but each
of them is given enough, and more steps change nothing (`unfold_sequence_eq`).

> `Text.Reblanked`: the relation between the two texts, character by character and run by run. A run
> has a line end exactly if the one that replaces it has one.
> `Likeness.reblanked`: two places keep step if what is left is reblanked; the offsets are of no
> account.

A likeness asks for three things. Up to the first blank the texts are equal (`Reblanked.solid_eq`),
and skipping within that leaves reblanked texts (`Reblanked.drop`). Past all blanks they are
reblanked again (`Reblanked.pastBlanks`). The third one is the reason for line ends: past the blanks
of a line, either both runs have been passed, or both readings stand before a line end
(`Reblanked.pastInlineBlanks`).
-/

namespace Estree

/-! ## Texts with other blanks -/

namespace Text

/-- A run of blanks. -/
structure IsRun (run : List Char) : Prop where
  ne_nil : run ≠ []
  blank : ∀ x ∈ run, isBlank x = true

/-- The second text is the first one with other runs of blanks in place of some of its own: each of
them has a line end if the one before it has one. -/
inductive Reblanked : List Char → List Char → Prop
  | nil : Reblanked [] []
  | keep {x : Char} {text text' : List Char} :
    isBlank x = false → Reblanked text text' → Reblanked (x :: text) (x :: text')
  | replace {run run' text text' : List Char} :
    IsRun run → IsRun run' → run.any isLineTerminator = run'.any isLineTerminator →
    (∀ x ∈ text.head?, isBlank x = false) → Reblanked text text' →
    Reblanked (run ++ text) (run' ++ text')

namespace Reblanked

variable {text text' : List Char}

/-- Texts that begin with no blank begin alike. -/
theorem head?_eq (h : Reblanked text text') (hhead : ∀ x ∈ text.head?, isBlank x = false) :
    text.head? = text'.head? := by
  cases h with
  | nil => rfl
  | keep => rfl
  | @replace run run' text text' hrun =>
    obtain ⟨y, ys, rfl⟩ := List.exists_cons_of_ne_nil hrun.ne_nil
    have hy := hhead y rfl
    rw [hrun.blank y (List.mem_cons_self ..)] at hy
    cases hy

/-- The texts have the same characters up to the first blank. -/
theorem solid_eq (h : Reblanked text text') : solid text = solid text' := by
  induction h with
  | nil => rfl
  | @keep x text text' hx _ ih =>
    rw [solid, solid, List.takeWhile_cons_of_pos (by simp [hx]),
      List.takeWhile_cons_of_pos (by simp [hx])]
    exact congrArg _ ih
  | @replace run run' text text' hrun hrun' =>
    obtain ⟨y, ys, rfl⟩ := List.exists_cons_of_ne_nil hrun.ne_nil
    obtain ⟨z, zs, rfl⟩ := List.exists_cons_of_ne_nil hrun'.ne_nil
    have hy := hrun.blank y (List.mem_cons_self ..)
    have hz := hrun'.blank z (List.mem_cons_self ..)
    rw [solid, solid, List.cons_append, List.cons_append,
      List.takeWhile_cons_of_neg (by simp [hy]), List.takeWhile_cons_of_neg (by simp [hz])]

/-- Behind characters that are no blanks the texts are alike again. -/
theorem drop (h : Reblanked text text') {n : Nat} (hn : n ≤ (solid text).length) :
    Reblanked (text.drop n) (text'.drop n) := by
  induction h generalizing n with
  | nil =>
    rw [List.drop_nil]
    exact .nil
  | @keep x text text' hx h ih =>
    cases n with
    | zero => exact .keep hx h
    | succ n =>
      rw [solid, List.takeWhile_cons_of_pos (by simp [hx])] at hn
      exact ih (Nat.le_of_succ_le_succ hn)
  | @replace run run' text text' hrun hrun' hany hhead h =>
    obtain ⟨y, ys, rfl⟩ := List.exists_cons_of_ne_nil hrun.ne_nil
    have hy := hrun.blank y (List.mem_cons_self ..)
    rw [solid, List.cons_append, List.takeWhile_cons_of_neg (by simp [hy])] at hn
    obtain rfl := Nat.le_zero.1 hn
    exact .replace hrun hrun' hany hhead h

/-- Where no blank is next, no blank is next in the other text. -/
theorem head?_of (h : Reblanked text text') (hhead : ∀ x ∈ text.head?, isBlank x = false) :
    ∀ x ∈ text'.head?, isBlank x = false := by
  rwa [← h.head?_eq hhead]

/-- Behind all blanks the texts are alike. -/
theorem pastBlanks (h : Reblanked text text') :
    Reblanked (text.dropWhile isBlank) (text'.dropWhile isBlank) := by
  cases h with
  | nil => exact .nil
  | keep hx h =>
    rw [List.dropWhile_cons_of_neg (by simp [hx]), List.dropWhile_cons_of_neg (by simp [hx])]
    exact .keep hx h
  | replace hrun hrun' hany hhead h =>
    rwa [dropWhile_append hrun.blank hhead, dropWhile_append hrun'.blank (h.head?_of hhead)]

/-- What is no blank is none of a line. -/
theorem isInlineBlank_eq_false {x : Char} (h : isBlank x = false) : isInlineBlank x = false := by
  rw [isInlineBlank, h]
  rfl

/-- A blank that ends no line is one of a line. -/
theorem isInlineBlank_eq_true {x : Char} (h : isBlank x = true)
    (hline : isLineTerminator x = false) :
    isInlineBlank x = true := by
  rw [isInlineBlank, h, hline]
  rfl

/-- The blanks of the first line of a run are all of it, or a line end is next. -/
theorem dropWhile_run {run : List Char} (hrun : IsRun run) :
    run.any isLineTerminator = false ∧ (∀ x ∈ run, isInlineBlank x = true) ∨
      run.any isLineTerminator = true ∧ ∃ rest, IsRun rest ∧ rest.any isLineTerminator = true ∧
        ∀ text, (run ++ text).dropWhile isInlineBlank = rest ++ text := by
  cases hany : run.any isLineTerminator with
  | false =>
    refine Or.inl ⟨rfl, fun x hx => isInlineBlank_eq_true (hrun.blank x hx) ?_⟩
    exact Bool.eq_false_iff.2 fun hline => by
      rw [List.any_eq_true.2 ⟨x, hx, hline⟩] at hany
      cases hany
  | true =>
    refine Or.inr ⟨rfl, run.dropWhile isInlineBlank, ?_⟩
    have hsplit : run.takeWhile isInlineBlank ++ run.dropWhile isInlineBlank = run :=
      List.takeWhile_append_dropWhile
    -- The blanks that are passed are none that end a line.
    have htake : (run.takeWhile isInlineBlank).any isLineTerminator = false := by
      refine Bool.eq_false_iff.2 fun htrue => ?_
      obtain ⟨x, hx, hline⟩ := List.any_eq_true.1 htrue
      have hinline := List.all_eq_true.1 List.all_takeWhile x hx
      rw [isInlineBlank, hline, Bool.not_true, Bool.and_false] at hinline
      cases hinline
    have hdrop : (run.dropWhile isInlineBlank).any isLineTerminator = true := by
      rw [← hsplit, List.any_append, htake, Bool.false_or] at hany
      exact hany
    have hne : run.dropWhile isInlineBlank ≠ [] := fun hnil => by
      rw [hnil] at hdrop
      cases hdrop
    refine ⟨⟨hne, fun x hx => hrun.blank x ((List.dropWhile_suffix _).mem hx)⟩, hdrop,
      fun text => ?_⟩
    have happend : run ++ text = run.takeWhile isInlineBlank ++
        (run.dropWhile isInlineBlank ++ text) := by
      rw [← List.append_assoc, hsplit]
    rw [happend]
    refine dropWhile_append (fun x hx => List.all_eq_true.1 List.all_takeWhile x hx) fun x hx => ?_
    obtain ⟨y, ys, hcons⟩ := List.exists_cons_of_ne_nil hne
    rw [hcons] at hx
    have hmem : x ∈ (run.dropWhile isInlineBlank).head? := by
      rw [hcons]
      exact hx
    exact not_of_mem_head?_dropWhile hmem

/-- Behind the blanks of one line the texts are alike. -/
theorem pastInlineBlanks (h : Reblanked text text') :
    Reblanked (text.dropWhile isInlineBlank) (text'.dropWhile isInlineBlank) := by
  cases h with
  | nil => exact .nil
  | keep hx h =>
    have hinline := isInlineBlank_eq_false hx
    rw [List.dropWhile_cons_of_neg (by simp [hinline]),
      List.dropWhile_cons_of_neg (by simp [hinline])]
    exact .keep hx h
  | @replace run run' text text' hrun hrun' hany hhead h =>
    rcases dropWhile_run hrun with ⟨hno, hinline⟩ | ⟨hline, rest, hrest, hrestline, hdrop⟩
    · rcases dropWhile_run hrun' with ⟨-, hinline'⟩ | ⟨hline', -⟩
      · rwa [dropWhile_append hinline fun x hx => isInlineBlank_eq_false (hhead x hx),
          dropWhile_append hinline' fun x hx => isInlineBlank_eq_false (h.head?_of hhead x hx)]
      · rw [hany, hline'] at hno
        cases hno
    · rcases dropWhile_run hrun' with ⟨hno', -⟩ | ⟨-, rest', hrest', hrestline', hdrop'⟩
      · rw [hany, hno'] at hline
        cases hline
      · rw [hdrop, hdrop']
        exact .replace hrest hrest' (hrestline.trans hrestline'.symm) hhead h

end Reblanked

end Text

/-! ## Readings of texts with other blanks -/

/-- The readings stand at places of texts that are alike but for their blanks; where these places
are, is of no account. -/
def Likeness.reblanked : Likeness Cursor Cursor where
  left _ := 0
  right _ := 0
  cursors c d := Text.Reblanked c.rest d.rest
  beside _ _ := True
  beside_moveTo _ _ h := h
  position_eq _ := rfl
  add_eq _ _ := rfl
  solid_eq h := h.solid_eq
  skip h hn := h.drop hn
  skipBlanks lineEnds h := by
    cases lineEnds with
    | true => exact h.pastBlanks
    | false => exact h.pastInlineBlanks

/-- Whole texts are read alike. -/
theorem Scan.program_reblanked (maxDepth : Nat) {c d : Cursor}
    (h : Text.Reblanked c.rest d.rest) :
    Likeness.reblanked.Results Likeness.reblanked.Values (program maxDepth c)
      (program maxDepth d) := by
  have hstates : Likeness.reblanked.States c d := ⟨h, trivial⟩
  refine Likeness.results_programOf ?_
  have hleft : c.rest.length ≤ max c.rest.length d.rest.length := Nat.le_max_left _ _
  have hright : d.rest.length ≤ max c.rest.length d.rest.length := Nat.le_max_right _ _
  show Likeness.reblanked.Results _
    (Grammar.unfold (Grammar.fuel c.rest.length) maxDepth (.sequence false) c)
    (Grammar.unfold (Grammar.fuel d.rest.length) maxDepth (.sequence false) d)
  rw [← Grammar.unfold_sequence_eq hleft, ← Grammar.unfold_sequence_eq hright]
  exact Likeness.reblanked.grammars_unfold _ _ (.sequence false) hstates

namespace Expr

/-- Two answers are the same tree but for spans, or errors with the same message. -/
inductive AnswersAlike : Except SyntaxError Expr → Except SyntaxError Expr → Prop
  | ok {e e' : Expr} (h : e.SameAs e') : AnswersAlike (.ok e) (.ok e')
  | error {error error' : SyntaxError} (h : error.message = error'.message) :
    AnswersAlike (.error error) (.error error')

/-- Of a run of blanks nothing matters to the reading but that it is there, and whether it has a
line end. -/
theorem parseWithin_reblanked (maxDepth : Nat) {source source' : String}
    (h : Text.Reblanked source.toList source'.toList) :
    AnswersAlike (parseWithin ⟨none, maxDepth⟩ source) (parseWithin ⟨none, maxDepth⟩ source') := by
  have hresults : Likeness.reblanked.Results Likeness.reblanked.Values
      (Scan.program maxDepth (.ofString source)) (Scan.program maxDepth (.ofString source')) :=
    Scan.program_reblanked maxDepth h
  rw [parseWithin_eq_report, parseWithin_eq_report]
  obtain ⟨e, e', c, d, hrun, hrun', hvalues, -⟩ | ⟨fault, fault', c, d, hrun, hrun', hcause, -⟩ :=
    hresults.ok_or_error
  · rw [hrun, hrun']
    have htree : e.relocated (fun _ => 0) = e'.relocated fun _ => 0 := hvalues
    rw [relocated_const, relocated_const] at htree
    exact .ok htree
  · rw [hrun, hrun']
    exact .error (congrArg Cause.message hcause)

/-- Line ends of two kinds, with and without other blanks beside them. -/
theorem parseWithin_reblanked_lineEnds :
    Text.Reblanked "a\n++ b".toList "a\r\n\t++\u00a0b".toList ∧
      AnswersAlike (parseWithin ⟨none, 8⟩ "a\n++ b")
        (parseWithin ⟨none, 8⟩ "a\r\n\t++\u00a0b") := by
  have hkept : ∀ {x : Char} {text : List Char}, Text.isBlank x = false →
      ∀ y ∈ (x :: text).head?, Text.isBlank y = false := by
    intro x text hx y hy
    rwa [← Option.some.inj hy]
  have hspace : Text.Reblanked ([' '] ++ ['b']) (['\u00a0'] ++ ['b']) :=
    .replace ⟨by decide, List.all_eq_true.1 rfl⟩ ⟨by decide, List.all_eq_true.1 rfl⟩ rfl (hkept rfl)
      (.keep rfl .nil)
  have hline : Text.Reblanked (['\n'] ++ ['+', '+', ' ', 'b'])
      (['\r', '\n', '\t'] ++ ['+', '+', '\u00a0', 'b']) :=
    .replace ⟨by decide, List.all_eq_true.1 rfl⟩ ⟨by decide, List.all_eq_true.1 rfl⟩ rfl (hkept rfl)
      (.keep rfl (.keep rfl hspace))
  have htext : Text.Reblanked "a\n++ b".toList "a\r\n\t++\u00a0b".toList := by
    have hleft : "a\n++ b".toList = 'a' :: (['\n'] ++ ['+', '+', ' ', 'b']) := by decide +kernel
    have hright : "a\r\n\t++\u00a0b".toList =
        'a' :: (['\r', '\n', '\t'] ++ ['+', '+', '\u00a0', 'b']) := by decide +kernel
    rw [hleft, hright]
    exact .keep rfl hline
  exact ⟨htext, parseWithin_reblanked 8 htext⟩

end Expr

end Estree
