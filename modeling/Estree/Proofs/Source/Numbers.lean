import Estree.Proofs.Number.Layout
import Estree.Proofs.Transfer.Alone

/-!
# Numerals alone

A numeral that is all there is of a text is read as one literal, whatever the limits, if they leave
four levels.

> `parseWithin_numeral`: the literal has the numeral as its spelling, and its value is the nearest
> number to what the numeral stands for.

> `parse_sourceText`: the text that is written for a finite number without sign is read as a literal
> of this very number.

The second one is where three things meet. The writing of numbers takes the shortest digits that are
rounded to this number and lays them out with or without an exponent; the grammar of numerals covers
either layout; and the rounding of the digits finds the number again.
-/

namespace Estree

namespace Expr

open Grammar

variable {limits : Limits} {raw : String} {decimal : Decimal}

/-- A numeral is read as the literal that it spells. -/
theorem parseWithin_numeral (hraw : IsNumeral raw.toList)
    (hread : Decimal.read? raw.toList = some decimal) (hlength : limits.exceeded? raw = none)
    (hdepth : 4 ≤ limits.maxDepth) :
    parseWithin limits raw = .ok (.literal ⟨0, Text.utf8Size raw.toList⟩ raw
      (.number (.ofDecimal decimal))) := by
  have hsplit : (Cursor.ofString raw).rest = raw.toList ++ [] := (List.append_nil _).symm
  have hends : EndsNumeral raw.toList [] := ⟨nofun, nofun⟩
  have hrun := Leaf.number_run hraw hread hsplit hends
  have hstart : Pattern.numberStart.isAtStart (Cursor.ofString raw).rest = true := by
    rw [hsplit]
    exact Pattern.numberStart_of_isNumeral hraw
  have hend : ((Cursor.ofString raw).skip raw.toList.length).AtEnd :=
    .of_rest (Cursor.skip_length_rest hsplit)
  have hstop : ((Cursor.ofString raw).skip raw.toList.length).position =
      Text.utf8Size raw.toList := by
    rw [Cursor.skip]
    simp
  rw [String.ofList_toList, hstop] at hrun
  have hreads : ReadsToEndWithin 4 (.ofString raw) _ :=
    readsToEnd_primary (.primary (.number hstart hrun)) hend
      (Token.unaryOperator?_of_numberStart hstart)
  exact parseWithin_eq_ok_of_readsWithin hreads hlength hdepth

/-- What is written for a finite number without sign is read as a literal of this number, bit for
bit, and its text is kept as it is. -/
theorem parse_sourceText {x : Binary64} (hfinite : x.isFinite = true)
    (hsign : x.isNegative = false) :
    parse x.sourceText = .ok (.literal ⟨0, Text.utf8Size x.sourceText.toList⟩ x.sourceText
      (.number x)) := by
  obtain ⟨decimal, hread, rfl⟩ :=
    Option.map_eq_some_iff.1 (Binary64.spells_sourceText hfinite hsign)
  exact parseWithin_numeral (Decimal.isNumeral_of_read? hread) hread rfl (by decide)

/-- The least positive number takes 324 digits after the point. -/
theorem parse_sourceText_least :
    let x : Binary64 := ⟨1⟩
    x.isFinite = true ∧ x.isNegative = false ∧
      parse x.sourceText = .ok (.literal ⟨0, Text.utf8Size x.sourceText.toList⟩ x.sourceText
        (.number x)) :=
  ⟨by decide, by decide, parse_sourceText (by decide) (by decide)⟩

end Expr

end Estree
