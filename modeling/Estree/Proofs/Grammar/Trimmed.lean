import Mathlib.Data.List.TakeWhile
import Estree.Proofs.Grammar.Likeness
import Estree.Proofs.Grammar.Reader
import Estree.Proofs.Grammar.Spans

/-!
# A text that stands elsewhere, and blanks behind it

The reading of a text that begins at an offset and ends in blanks keeps step with the reading of the
text alone (`Likeness.trimmed`). Only where they have come to the end may their places differ, as
the first one goes on past the blanks; so offsets behind the end count as the end.

No node ends in the blanks behind a text. So the trees of both readings, which look the same with
all offsets behind the end counted as the end, have spans that differ by the offset and by nothing
else (`relocated_congr`).

`Derives.alike` brings a likeness back to derivations. What has been derived is read with enough
levels; the reading that keeps step yields what looks the same; and what is read can be derived.
-/

namespace Estree

open Text

/-! ## Trees that look the same between other offsets -/

namespace Expr

/-- Offsets that are the same for all spans of a tree leave the same tree. -/
theorem relocated_congr {f g : Nat → Nat} {e : Expr}
    (h : ∀ n ∈ e.nodes, n.span.relocated f = n.span.relocated g) :
    e.relocated f = e.relocated g := by
  induction e using Expr.induction with
  | h e ih =>
    obtain ⟨hroot, hchildren⟩ := forall_mem_nodes_iff.1 h
    have hchild : ∀ x ∈ e.children, x.relocated f = x.relocated g :=
      fun x hx => ih x hx (hchildren x hx)
    have hlist : ∀ es ⊆ e.children, relocatedList f es = relocatedList g es := fun es hes => by
      rw [relocatedList_eq_map, relocatedList_eq_map]
      exact List.map_congr_left fun x hx => hchild x (hes hx)
    cases e with
    | literal span | identifier span | this span =>
      rw [relocated, relocated, show span.relocated f = span.relocated g from hroot]
    | array span elements =>
      rw [relocated, relocated, show span.relocated f = span.relocated g from hroot,
        relocatedSlots_eq_map, relocatedSlots_eq_map]
      refine congrArg _ (List.map_congr_left fun slot hslot => ?_)
      cases slot with
      | none => rfl
      | some x => exact congrArg some (hchild x (List.mem_filterMap.2 ⟨_, hslot, rfl⟩))
    | sequence span es =>
      rw [relocated, relocated, show span.relocated f = span.relocated g from hroot,
        hlist es (List.Subset.refl es)]
    | new span callee es | call span callee es =>
      rw [relocated, relocated, show span.relocated f = span.relocated g from hroot,
        hchild callee (List.mem_cons_self ..), hlist es (List.subset_cons_self callee es)]
    | conditional span test consequent alternate =>
      rw [relocated, relocated, show span.relocated f = span.relocated g from hroot,
        hchild test (by simp [children]), hchild consequent (by simp [children]),
        hchild alternate (by simp [children])]
    | member span left right | binary span _ left right | logical span _ left right =>
      rw [relocated, relocated, show span.relocated f = span.relocated g from hroot,
        hchild left (by simp [children]), hchild right (by simp [children])]
    | chain span x | update span _ _ x | unary span _ _ x =>
      rw [relocated, relocated, show span.relocated f = span.relocated g from hroot,
        hchild x (List.mem_singleton_self x)]

end Expr

/-! ## Readings of such texts -/

section Blanks

variable {p : Char → Bool} {text blanks : List Char}

/-- A run of a class ends within a text that is not all of that class, whatever comes behind. -/
theorem Text.takeWhile_append_of_mem {x : Char} (hx : x ∈ text) (hp : p x = false)
    (blanks : List Char) :
    (text ++ blanks).takeWhile p = text.takeWhile p ∧
      (text ++ blanks).dropWhile p = text.dropWhile p ++ blanks := by
  induction text with
  | nil => cases hx
  | cons y ys ih =>
    by_cases hy : p y = true
    · have hys : x ∈ ys := (List.mem_cons.1 hx).resolve_left fun hxy => by
        rw [hxy, hy] at hp
        cases hp
      obtain ⟨htake, hdrop⟩ := ih hys
      rw [List.cons_append, List.takeWhile_cons_of_pos hy, List.takeWhile_cons_of_pos hy,
        List.dropWhile_cons_of_pos hy, List.dropWhile_cons_of_pos hy, htake]
      exact ⟨rfl, hdrop⟩
    · rw [List.cons_append, List.takeWhile_cons_of_neg hy, List.takeWhile_cons_of_neg hy,
        List.dropWhile_cons_of_neg hy, List.dropWhile_cons_of_neg hy]
      exact ⟨rfl, rfl⟩

/-- Blanks behind a text are not seen up to its first blank. -/
theorem Text.solid_append_blanks (hblanks : ∀ x ∈ blanks, isBlank x = true) :
    solid (text ++ blanks) = solid text := by
  by_cases hall : ∀ x ∈ text, (!isBlank x) = true
  · have hnil : blanks.takeWhile (fun x => !isBlank x) = [] := by
      cases blanks with
      | nil => rfl
      | cons y ys =>
        rw [List.takeWhile_cons_of_neg]
        simp [hblanks y (List.mem_cons_self ..)]
    rw [solid, solid, List.takeWhile_append_of_pos hall, hnil, List.append_nil,
      List.takeWhile_eq_self_iff.2 hall]
  · obtain ⟨x, hx, hblank⟩ : ∃ x ∈ text, ¬(!isBlank x) = true := by
      simpa using hall
    exact (takeWhile_append_of_mem hx (Bool.eq_false_iff.2 hblank) blanks).1

end Blanks

/-- The first reading stands in a text that begins at the offset, stops before `stop` and ends in
blanks, and the second one at the same character of the text alone. -/
def Likeness.trimmed (offset stop : Nat) : Likeness Cursor Cursor where
  left p := min p stop
  right p := min (offset + p) stop
  cursors c d := min c.position stop = min (offset + d.position) stop ∧
    offset + d.position + utf8Size d.rest = stop ∧
    ∃ blanks : List Char, (∀ x ∈ blanks, isBlank x = true) ∧ c.rest = d.rest ++ blanks
  beside _ _ := True
  beside_moveTo _ _ h := h
  position_eq h := h.1
  add_eq n h := by
    omega
  solid_eq := by
    rintro c d ⟨-, -, blanks, hblanks, hrest⟩
    rw [hrest, solid_append_blanks hblanks]
  skip := by
    rintro c d n ⟨hposition, hstop, blanks, hblanks, hrest⟩ hn
    rw [hrest, solid_append_blanks hblanks] at hn
    have hle : n ≤ d.rest.length := Nat.le_trans hn (List.takeWhile_prefix _).length_le
    have hsplit := congrArg utf8Size (List.take_append_drop n d.rest)
    rw [utf8Size_append] at hsplit
    refine ⟨?_, ?_, blanks, hblanks, ?_⟩
    · show min (c.position + utf8Size (c.rest.take n)) stop =
        min (offset + (d.position + utf8Size (d.rest.take n))) stop
      rw [hrest, List.take_append_of_le_length hle]
      omega
    · show offset + (d.position + utf8Size (d.rest.take n)) + utf8Size (d.rest.drop n) = stop
      omega
    · rw [Cursor.skip_rest, Cursor.skip_rest, hrest, List.drop_append_of_le_length hle]
  skipBlanks := by
    rintro c d lineEnds ⟨hposition, hstop, blanks, hblanks, hrest⟩
    generalize hp : (if lineEnds = true then isBlank else isInlineBlank) = p
    have hsplit := congrArg utf8Size (List.takeWhile_append_dropWhile (p := p) (l := d.rest))
    rw [utf8Size_append] at hsplit
    rw [Cursor.skipBlanks, Cursor.skipBlanks, hp]
    show min (c.position + utf8Size (c.rest.takeWhile p)) stop =
        min (offset + (d.position + utf8Size (d.rest.takeWhile p))) stop ∧
      offset + (d.position + utf8Size (d.rest.takeWhile p)) + utf8Size (d.rest.dropWhile p) = stop ∧
      ∃ blanks : List Char, (∀ x ∈ blanks, isBlank x = true) ∧
        c.rest.dropWhile p = d.rest.dropWhile p ++ blanks
    rw [hrest]
    by_cases hall : ∀ x ∈ d.rest, p x = true
    · -- The second reading is at the end, and the first one among the blanks behind it.
      have hnil : d.rest.dropWhile p = [] := List.dropWhile_eq_nil_iff.2 hall
      rw [List.takeWhile_append_of_pos hall, List.dropWhile_append_of_pos hall, hnil,
        List.takeWhile_eq_self_iff.2 hall, utf8Size_append]
      refine ⟨by omega, by simp only [utf8Size_nil]; omega, blanks.dropWhile p,
        fun x hx => hblanks x ((List.dropWhile_suffix p).mem hx), rfl⟩
    · obtain ⟨x, hx, hpx⟩ : ∃ x ∈ d.rest, ¬p x = true := by
        simpa using hall
      obtain ⟨htake, hdrop⟩ := takeWhile_append_of_mem hx (Bool.eq_false_iff.2 hpx) blanks
      rw [htake, hdrop]
      exact ⟨by omega, by omega, blanks, hblanks, rfl⟩

namespace Grammar

variable {depth : Nat} {p q : Production} {c c' d : Cursor} {v : p.Yield}

/-- What is read is read by a reading that keeps step. -/
theorem Derives.alike {x : Likeness Cursor Cursor} (h : Derives depth p c v c')
    (hstates : x.States c d) {values : p.Yield → q.Yield → Prop}
    (hpq : Production.Like ⟨x.left, none⟩ ⟨x.right, none⟩ p q values) :
    ∃ w d', Derives depth q d w d' ∧ values v w ∧ x.cursors c' d' := by
  have hrank := rank_le p
  have haffords : Affords (16 * c.rest.length + 14) depth depth p c :=
    ⟨by omega, Or.inl (Nat.le_refl depth)⟩
  have hrun := h.unfold_eq_ok haffords
  have hresults := x.grammars_unfold (16 * c.rest.length + 14) depth hpq hstates
  obtain ⟨v', w, e, d', hrun₁, hrun', hvalues, hnext⟩ | ⟨fault, -, e, -, hrun₁, -⟩ :=
    hresults.ok_or_error
  · cases hrun.symm.trans hrun₁
    exact ⟨w, d', unfold_isSound _ hrun', hvalues, hnext.cursors⟩
  · cases hrun.symm.trans hrun₁

end Grammar

end Estree
