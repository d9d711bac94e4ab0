import Estree.Proofs.Number.Nearest
import Estree.Proofs.Source.Numbers

/-!
# How numbers are scanned

A number is scanned in steps that each may take nothing: digits, a point, digits, a marker, a sign,
digits. What they come to together is said here without the steps.

> `Leaf.number_scans`: where a number starts, whatever follows, it is the longest mantissa there,
> and a power of ten with all its digits if a marker follows. Only if a marker without digits
> follows, there is a fault, right behind the marker and its sign.

`ScansNumber` has one case for each of the three outcomes, and what a fault comes to is left open
(`failed`): a fault of the number alone becomes one of the whole text as the reading goes on, and
`ScansNumber.imp` carries the cases along.
-/

namespace Estree

/-- The longest mantissa that a text begins with. -/
structure IsLongestMantissa (mantissa text : List Char) : Prop where
  isMantissa : IsMantissa mantissa
  isPrefix : mantissa <+: text
  length_le : ∀ other, IsMantissa other → other <+: text → other.length ≤ mantissa.length

/-- The mantissa that is scanned is the longest one there. -/
theorem isLongestMantissa_leadingMantissa {text : List Char}
    (h : Pattern.numberStart.isAtStart text = true) :
    IsLongestMantissa (leadingMantissa text) text where
  isMantissa := isMantissa_leadingMantissa h
  isPrefix := leadingMantissa_isPrefix text
  length_le _ := length_le_leadingMantissa

namespace Cursor

/-- The number at the cursor has this spelling: it is read as a literal of these characters and of
the double nearest to the decimal that they spell, and so they are where they are all there is. -/
def ReadsNumber (c : Cursor) (raw : List Char) : Prop :=
  ∃ decimal value, Decimal.read? raw = some decimal ∧ Binary64.IsNearest decimal value ∧
    Leaf.number c = .ok (.literal ⟨c.position, (c.skip raw.length).position⟩ (String.ofList raw)
      (.number value)) (c.skip raw.length) ∧
    ∀ limits : Limits, limits.exceeded? (String.ofList raw) = none → 4 ≤ limits.maxDepth →
      Expr.parseWithin limits (String.ofList raw) =
        .ok (.literal ⟨0, Text.utf8Size raw⟩ (String.ofList raw) (.number value))

/-- What becomes of the number that starts at the cursor, where `failed` is what a fault of it comes
to. -/
inductive ScansNumber (c : Cursor) (failed : Fault → Prop) : Prop
  | mantissa {mantissa rest : List Char} :
    c.rest = mantissa ++ rest → IsLongestMantissa mantissa c.rest →
    (∀ x ∈ rest.head?, x ≠ 'e' ∧ x ≠ 'E') → c.ReadsNumber mantissa → ScansNumber c failed
  | power {mantissa power rest : List Char} :
    c.rest = mantissa ++ (power ++ rest) → IsLongestMantissa mantissa c.rest →
    IsPower power → (∀ x ∈ rest.head?, x.isDigit = false) → c.ReadsNumber (mantissa ++ power) →
    ScansNumber c failed
  | dangling {mantissa begun rest : List Char} :
    c.rest = mantissa ++ (begun ++ rest) → IsLongestMantissa mantissa c.rest →
    IsDanglingPower begun rest →
    failed ⟨.expected .exponentValue, (c.skip (mantissa ++ begun).length).position⟩ →
    ScansNumber c failed

/-- What a fault comes to may be weakened. -/
theorem ScansNumber.imp {c : Cursor} {failed failed' : Fault → Prop} (h : c.ScansNumber failed)
    (himp : ∀ fault, failed fault → failed' fault) : c.ScansNumber failed' := by
  cases h with
  | mantissa hrest hlongest hmarker hreads => exact .mantissa hrest hlongest hmarker hreads
  | power hrest hlongest hpower hdigit hreads => exact .power hrest hlongest hpower hdigit hreads
  | dangling hrest hlongest hdangling hfailed =>
    exact .dangling hrest hlongest hdangling (himp _ hfailed)

end Cursor

namespace Leaf

open Scan

variable {c : Cursor} {raw : List Char}

/-- What is taken as the spelling of a number is read as that number. -/
theorem readsNumber_of_numberText (hraw : IsNumeral raw)
    (h : numberText c = .ok raw (c.skip raw.length)) : c.ReadsNumber raw := by
  obtain ⟨decimal, hread⟩ := Option.isSome_iff_exists.1 (Decimal.read?_isSome_of_isNumeral hraw)
  refine ⟨decimal, .ofDecimal decimal, hread, Binary64.isNearest_ofDecimal decimal, ?_, ?_⟩
  · rw [number, position_bind, bind_run h, hread]
    rfl
  · intro limits hlength hdepth
    rw [← String.toList_ofList (l := raw)] at hraw hread
    have hparse := Expr.parseWithin_numeral hraw hread hlength hdepth
    rwa [String.toList_ofList] at hparse

/-- Where a number starts, one of three things becomes of it. -/
theorem number_scans (hstart : Pattern.numberStart.isAtStart c.rest = true) :
    c.ScansNumber fun fault => ∃ c', number c = .error fault c' := by
  have hlongest := isLongestMantissa_leadingMantissa hstart
  obtain ⟨rest, hrest⟩ := leadingMantissa_isPrefix c.rest
  have htext := numberText_eq c
  generalize leadingMantissa c.rest = mantissa at hlongest hrest htext
  have hrest₁ : (c.skip mantissa.length).rest = rest := Cursor.skip_length_rest hrest.symm
  rcases power_cases rest with hmarker | ⟨power, behind, rfl, hpower, hdigit⟩ |
    ⟨begun, behind, rfl, hdangling⟩
  · refine .mantissa hrest.symm hlongest hmarker (readsNumber_of_numberText ?_ ?_)
    · exact ⟨mantissa, [], hlongest.isMantissa, .inl rfl, (List.append_nil _).symm⟩
    · rw [htext, bind_run (power_none_run (hrest₁ ▸ hmarker)), List.append_nil]
      rfl
  · refine .power hrest.symm hlongest hpower hdigit (readsNumber_of_numberText ?_ ?_)
    · exact ⟨mantissa, power, hlongest.isMantissa, .inr hpower, rfl⟩
    · rw [htext, bind_run (power_run hpower hrest₁ hdigit), Cursor.skip_skip, List.length_append]
      rfl
  · refine .dangling hrest.symm hlongest hdangling ⟨c.skip (mantissa ++ begun).length, ?_⟩
    rw [number, position_bind]
    refine bind_error ?_
    rw [htext, bind_error (power_fault hdangling hrest₁), Cursor.skip_skip, List.length_append]

end Leaf

end Estree
