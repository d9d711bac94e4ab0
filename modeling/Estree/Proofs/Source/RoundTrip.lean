import Estree.Proofs.Grammar.Points
import Estree.Proofs.Source.Points
import Estree.Proofs.Source.Reread

/-!
# Round trips

What is written is read again as the same tree, apart from spans. There are two main results, one
for any tree and one for trees that have been read.

> `parseWithin_toSource`: all well-formed trees are read again. The levels that are asked for are
> four per byte of the text, which is more than any text can open (`readsWithin_text`).

> `reread_iff`: what has been read is read again exactly if no `new` among its nodes is misread.

The operand of `new typeof.(x)` is an identifier and the call of it, with nothing in the tree that
tells of the point; its text `new (typeof(x))()` has an operator in its place. No other tree that is
read comes back as another one.

One half of this is the induction over trees of `Proofs/Source/Reread`. The other half, that a
misread text cannot be read as the same tree in some other way, is shown by counting points.
Whatever is read passes as many as the tree weighs (`Derives.spends`), a misread `new` weighs one
more than it is written with, and the text has those of its nodes and no others (`points_text`).
-/

namespace Estree

open Grammar Source

namespace Expr

variable {e : Expr} {limits : Limits} {source : String}

/-- The grammar reads the text of a tree as the tree, with three levels above those of the text: for
an expression, its operands and an operand. -/
theorem readsWithin_text (h : e.AllFit) (hfree : e.IsFree)
    (hread : ∀ n ∈ e.nodes, n.isMisread = false) :
    ∃ e', ReadsWithin (e.levels + 3) (String.ofList e.text) e' ∧ e'.SameAs e := by
  have hreads := rereads h hread e.levels (Nat.le_refl _)
  have hrest : (Cursor.ofString (String.ofList e.text)).rest = e.text ++ [] := by
    rw [List.append_nil]
    exact String.toList_ofList
  obtain ⟨e', c', hderives, hsame, hc'⟩ :=
    derives_sequence (hreads.expressions hfree) (hreads.starts.pastBlanks_rest hrest) .nil
  exact ⟨e', ⟨c', hderives, by rw [Cursor.pastBlanks_rest, hc']; rfl⟩, hsame⟩

/-- The grammar reads the text of a tree as the tree. -/
theorem reads_text (h : e.AllFit) (hfree : e.IsFree) (hread : ∀ n ∈ e.nodes, n.isMisread = false) :
    ∃ e', Reads (String.ofList e.text) e' ∧ e'.SameAs e := by
  obtain ⟨e', hreads, hsame⟩ := readsWithin_text h hfree hread
  exact ⟨e', ⟨_, hreads⟩, hsame⟩

/-- Every well-formed tree is written as a text that is read as the same tree, if the limits are
wide enough for the text. -/
theorem parseWithin_toSource (h : e.WellFormed) :
    ∃ text, e.toSource = .ok text ∧ ∀ limits : Limits, limits.exceeded? text = none →
      4 * (Text.utf8Size text.toList + 1) ≤ limits.maxDepth →
      ∃ e', parseWithin limits text = .ok e' ∧ e'.SameAs e := by
  refine ⟨_, toSource_eq_ok h.fits, fun limits hlength hdepth => ?_⟩
  obtain ⟨e', hreads, hsame⟩ := reads_text h.fits h.isFree h.isMisread_eq_false
  exact ⟨e', parseWithin_eq_ok_of_reads hreads hlength hdepth, hsame⟩

/-- `a?.b` is well formed, and so its text is read as it. -/
theorem parseWithin_toSource_chain :
    let e := chain nowhere
      (member nowhere (identifier nowhere "a") (identifier nowhere "b") false true)
    e.WellFormed ∧ ∃ text, e.toSource = .ok text ∧ ∀ limits : Limits, limits.exceeded? text = none →
      4 * (Text.utf8Size text.toList + 1) ≤ limits.maxDepth →
      ∃ e', parseWithin limits text = .ok e' ∧ e'.SameAs e := by
  have ha : IsName "a" := ⟨'a', [], rfl, rfl, nofun⟩
  have hb : IsName "b" := ⟨'b', [], rfl, rfl, nofun⟩
  intro e
  have hwell : e.WellFormed := by
    have hnodes : e.nodes =
        [e, member nowhere (identifier nowhere "a") (identifier nowhere "b") false true,
          identifier nowhere "a", identifier nowhere "b"] := rfl
    refine wellFormed_iff.2 ⟨?_, rfl, trivial, ?_⟩
    · intro n hn
      simp only [hnodes, List.mem_cons, List.not_mem_nil, or_false] at hn
      rcases hn with rfl | rfl | rfl | rfl
      · exact ⟨rfl, by decide, nofun, nofun⟩
      · exact ⟨fun _ => rfl, by decide, by decide, nofun⟩
      · exact ⟨ha, nofun, nofun, nofun⟩
      · exact ⟨hb, nofun, nofun, nofun⟩
    · intro n hn x hx
      simp only [hnodes, List.mem_cons, List.not_mem_nil, or_false] at hn
      rcases hn with rfl | rfl | rfl | rfl
      · obtain rfl := List.mem_singleton.1 hx
        exact trivial
      · obtain rfl := List.mem_singleton.1 hx
        exact ⟨ha, by decide⟩
      · cases hx
      · cases hx
  exact ⟨hwell, parseWithin_toSource hwell⟩

/-! ## What has been read -/

/-- What a text is read as weighs no more than the points of the text. -/
theorem weight_le_of_reads (h : Reads source e) : e.weight ≤ source.toList.count '.' := by
  obtain ⟨_, c', hderives, -⟩ := h
  have hspends : c'.points + e.weight ≤ (Cursor.ofString source).points := hderives.spends
  exact Nat.le_trans (Nat.le_add_left _ _) hspends

/-- If a text is read as the tree that it was written for, nothing in it is misread. -/
theorem isMisread_eq_false_of_reads {e' : Expr} (h : e.AllFit)
    (hreads : Reads (String.ofList e.text) e') (hsame : e'.SameAs e) :
    ∀ n ∈ e.nodes, n.isMisread = false := by
  have hweight := weight_le_of_reads hreads
  rw [String.toList_ofList, points_text h, hsame.weight_eq] at hweight
  exact isMisread_eq_false_of_weight_le hweight

theorem eq_ok_of_toOption {ε α : Type} {a : α} {result : Except ε α}
    (h : result.toOption = some a) : result = .ok a := by
  cases result with
  | ok => exact congrArg Except.ok (Option.some.inj h)
  | error => cases h

/-- What is checked of the outcome of a run holds of its result, and there is one. -/
theorem exists_of_any_toOption {ε α : Type} {p : α → Bool} {result : Except ε α}
    (h : result.toOption.any p = true) : ∃ a, result = .ok a ∧ p a = true := by
  obtain ⟨a, ha, hp⟩ := (Option.any_eq_true _ _).1 h
  exact ⟨a, eq_ok_of_toOption ha, hp⟩

theorem text_of_toSource {text : String} (h : e.AllFit) (htext : e.toSource = .ok text) :
    text = String.ofList e.text :=
  Except.ok.inj (htext.symm.trans (toSource_eq_ok h))

/-- What has been read is written as a text that is read as the same tree exactly if no `new` has an
operator read in its callee that was an identifier before. -/
theorem reread_iff {text : String} (h : parseWithin limits source = .ok e)
    (htext : e.toSource = .ok text) {wide : Limits} (hlength : wide.exceeded? text = none)
    (hdepth : 4 * (Text.utf8Size text.toList + 1) ≤ wide.maxDepth) :
    (∃ e', parseWithin wide text = .ok e' ∧ e'.SameAs e) ↔ ∀ n ∈ e.nodes, n.isMisread = false := by
  have hoperand := (reads_of_parseWithin_eq_ok h).isOperand
  obtain rfl := text_of_toSource hoperand.allFit htext
  constructor
  · rintro ⟨e', hparse, hsame⟩
    exact isMisread_eq_false_of_reads hoperand.allFit (reads_of_parseWithin_eq_ok hparse) hsame
  · intro hread
    obtain ⟨e', hreads, hsame⟩ := reads_text hoperand.allFit hoperand.isFree hread
    exact ⟨e', parseWithin_eq_ok_of_reads hreads hlength hdepth, hsame⟩

/-- With a call on the spine of the callee, but no operator's word, nothing is misread. -/
theorem reread_iff_newCall : ∃ e, parse "new (f())(a?.b)" = .ok e ∧
    e.toSource = .ok "new (f())(a?.b)" ∧ Limits.standard.exceeded? "new (f())(a?.b)" = none ∧
    4 * (Text.utf8Size "new (f())(a?.b)".toList + 1) ≤ Limits.standard.maxDepth ∧
    ((∃ e', parse "new (f())(a?.b)" = .ok e' ∧ e'.SameAs e) ↔
      ∀ n ∈ e.nodes, n.isMisread = false) := by
  have hcheck : (parse "new (f())(a?.b)").toOption.any
      (fun e => e.toSource.toOption == some "new (f())(a?.b)") = true := by
    decide +kernel
  obtain ⟨e, hparse, hcheck⟩ := exists_of_any_toOption hcheck
  have htext := eq_ok_of_toOption (eq_of_beq hcheck)
  exact ⟨e, hparse, htext, rfl, by decide, reread_iff hparse htext rfl (by decide)⟩

/-- The text of `new typeof.(x)` is read as no tree that is the same. -/
theorem reread_fails_typeof : ∃ e, parse "new typeof.(x)" = .ok e ∧
    e.toSource = .ok "new (typeof(x))()" ∧
    ∀ wide e', parseWithin wide "new (typeof(x))()" = .ok e' → ¬e'.SameAs e := by
  have hcheck : (parse "new typeof.(x)").toOption.any (fun e =>
      e.toSource.toOption == some "new (typeof(x))()" && e.nodes.any isMisread) = true := by
    decide +kernel
  obtain ⟨e, hparse, hcheck⟩ := exists_of_any_toOption hcheck
  obtain ⟨htext, hmisread⟩ := Bool.and_eq_true_iff.1 hcheck
  have htext := eq_ok_of_toOption (eq_of_beq htext)
  refine ⟨e, hparse, htext, fun wide e' hparse' hsame => ?_⟩
  have hfits := (reads_of_parseWithin_eq_ok hparse).isOperand.allFit
  obtain ⟨n, hn, hmisread⟩ := List.any_eq_true.1 hmisread
  have hreads := reads_of_parseWithin_eq_ok hparse'
  rw [text_of_toSource hfits htext] at hreads
  rw [isMisread_eq_false_of_reads hfits hreads hsame n hn] at hmisread
  cases hmisread

end Expr

end Estree
