/-!
# Sets of code points as ranges

A character property of the Unicode standard is a set of code points; the tables beside this module
list such sets as inclusive ranges in increasing order.
-/

namespace Estree.Text

/-- A set of code points, given by the first and the last of each range. -/
abbrev CodeRanges := List (Nat × Nat)

/-- Whether a character lies in one of the ranges. -/
def CodeRanges.contains (ranges : CodeRanges) (c : Char) : Bool :=
  ranges.any fun range => range.1 ≤ c.toNat && c.toNat ≤ range.2

theorem CodeRanges.contains_iff {ranges : CodeRanges} {c : Char} :
    ranges.contains c = true ↔ ∃ range ∈ ranges, range.1 ≤ c.toNat ∧ c.toNat ≤ range.2 := by
  simp [CodeRanges.contains]

end Estree.Text
