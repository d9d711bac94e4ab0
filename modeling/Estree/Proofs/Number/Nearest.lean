import Mathlib.Algebra.Order.Field.Basic
import Mathlib.Algebra.Order.Field.Rat
import Estree.Proofs.Number.Numeral
import Estree.Proofs.Number.Rounding

/-!
# Decimals are read as the nearest doubles

> `isNearest_ofDecimal`: no double is nearer to a decimal than the one that the decimal is read as,
> and where another one is equally near, it is the even one of the two.

Decimals beyond the doubles are compared as if the next exponent were for numbers, too: an infinity
stands for `2 ^ 1024`, which is how rounding to nearest treats overflow.

Distances are compared as whole numbers, over a common denominator: every double is a multiple of `2
^ -1074`, and `units` is this multiple. What rounding does is to keep the leading 53 binary digits,
which is to look for the nearest multiple of a power of two (`kept_bounds`). Of these multiples
`divideToEven` finds the nearest (`divideToEven_nearest`). A double that is no such multiple has a
smaller exponent, so it is below `2 ^ 52` times this power and below the fraction, where a multiple
lies between the two (`units_multiple`, `ofFraction_nearest`).
-/

namespace Estree

/-- The number that a decimal is. -/
def Decimal.toRat (decimal : Decimal) : ℚ :=
  decimal.significand * (10 : ℚ) ^ decimal.exponent

namespace Binary64

/-- The number in units of `2 ^ -1074`, with its sign. -/
def signedUnits (x : Binary64) : ℤ :=
  if x.isNegative then -x.units else x.units

/-- The number that a double is; an infinity counts as `2 ^ 1024`. -/
def toRat (x : Binary64) : ℚ :=
  x.signedUnits / unitsPerOne

/-- No double is nearer to the decimal, and if another one is equally near, this one is even. -/
structure IsNearest (decimal : Decimal) (x : Binary64) : Prop where
  isNaN_eq : x.isNaN = false
  isNegative_eq : x.isNegative = false
  le : ∀ y : Binary64, y.isNaN = false → |x.toRat - decimal.toRat| ≤ |y.toRat - decimal.toRat|
  even : ∀ y : Binary64, y.isNaN = false → |y.toRat - decimal.toRat| = |x.toRat - decimal.toRat| →
    y.toRat ≠ x.toRat → x.magnitude % 2 = 0

variable {n d : Nat}

/-- The distance of a double from a quotient, over a common denominator. -/
theorem abs_toRat_sub (x : Binary64) (hd : 0 < d) :
    |x.toRat - (n : ℚ) / d| =
      ((x.signedUnits * d - (n * unitsPerOne : Nat)).natAbs : ℚ) / (unitsPerOne * d) := by
  have hunits : (0 : ℚ) < unitsPerOne := by exact_mod_cast unitsPerOne_pos
  have hd' : (0 : ℚ) < d := by exact_mod_cast hd
  rw [toRat, Nat.cast_natAbs, Int.cast_abs, div_sub_div _ _ hunits.ne' hd'.ne', abs_div,
    abs_of_pos (mul_pos hunits hd')]
  push_cast
  rw [mul_comm (unitsPerOne : ℚ) n]

/-! ## Quotients -/

/-- How far a whole number is from a quotient, in parts of the divisor. -/
def distance (n d m : Nat) : Nat :=
  ((m * d : Nat) - n : Int).natAbs

/-- A factor of the multiple can be taken to the divisor. -/
theorem distance_mul (n d m k : Nat) : distance n d (m * k) = distance n (d * k) m := by
  rw [distance, distance, Nat.mul_assoc, Nat.mul_comm k]

/-- Multiples of a whole number are at least as far apart. -/
theorem mul_add_le_mul {a b : Nat} (h : a < b) (d : Nat) : a * d + d ≤ b * d := by
  rw [← Nat.succ_mul]
  exact Nat.mul_le_mul_right d h

/-- Below a quotient, the larger number is nearer. -/
theorem distance_lt {m m' : Nat} (hd : 0 < d) (hlt : m < m') (hle : m' * d ≤ n) :
    distance n d m' < distance n d m := by
  have hmul := mul_add_le_mul hlt d
  rw [distance, distance]
  omega

/-- Of the whole numbers the one that a quotient is rounded to is the nearest, and even if another
one is equally near. -/
theorem divideToEven_nearest (n : Nat) (hd : 0 < d) (j : Nat) :
    distance n d (divideToEven n d) ≤ distance n d j ∧
      (distance n d j = distance n d (divideToEven n d) → j ≠ divideToEven n d →
        divideToEven n d % 2 = 0) := by
  have hsplit := Nat.div_add_mod' n d
  have hlt := Nat.mod_lt n hd
  have hsucc : (n / d + 1) * d = n / d * d + d := Nat.succ_mul ..
  rw [distance, distance, divideToEven]
  generalize n / d = quotient at *
  generalize n % d = remainder at *
  rcases Nat.lt_trichotomy j quotient with hj | rfl | hj
  · have hbelow := mul_add_le_mul hj d
    split <;> omega
  · split <;> omega
  · rcases (show j = quotient + 1 ∨ quotient + 1 < j by omega) with rfl | hj
    · split <;> omega
    · have habove := mul_add_le_mul hj d
      split <;> omega

/-- Of a quotient 53 bits are kept, unless it has fewer. -/
theorem kept_bounds (hd : 0 < d) {dropped : Nat} (hdropped : dropped = (n / d).log2 - 52) :
    divideToEven n (d * Nat.pow 2 dropped) ≤ Nat.pow 2 53 ∧
      (dropped ≠ 0 → Nat.pow 2 52 ≤ divideToEven n (d * Nat.pow 2 dropped) ∧
        Nat.pow 2 (52 + dropped) * d ≤ n) := by
  have hround : divideToEven n (d * Nat.pow 2 dropped) ≤ n / (d * Nat.pow 2 dropped) + 1 := by
    rw [divideToEven]
    split
    · exact Nat.le_succ _
    · exact Nat.le_refl _
  have hquotient : n / (d * Nat.pow 2 dropped) < Nat.pow 2 53 := by
    rw [← Nat.div_div_eq_div_mul, Nat.div_lt_iff_lt_mul (two_pow_pos _), two_pow_mul rfl]
    have hlog : n / d < Nat.pow 2 ((n / d).log2 + 1) := Nat.lt_log2_self
    exact Nat.lt_of_lt_of_le hlog (Nat.pow_le_pow_right (by decide) (by omega))
  refine ⟨by omega, fun hne => ?_⟩
  have hlog : (n / d).log2 = 52 + dropped := by omega
  have hpos : n / d ≠ 0 := fun hzero => by
    rw [hzero] at hlog
    have hnone : Nat.log2 0 = 0 := rfl
    omega
  have hsize : Nat.pow 2 (52 + dropped) ≤ n / d := hlog ▸ Nat.log2_self_le hpos
  have hfull := (Nat.le_div_iff_mul_le hd).1 hsize
  refine ⟨Nat.le_trans ?_ (div_le_divideToEven _ _), hfull⟩
  rw [Nat.le_div_iff_mul_le (Nat.mul_pos hd (two_pow_pos _)), Nat.mul_comm d, ← Nat.mul_assoc,
    two_pow_mul rfl]
  exact hfull

/-! ## Units -/

/-- The units of a number by the two parts of its magnitude. -/
theorem units_eq {x : Binary64} {exponent fraction : Nat} (hfraction : fraction < Nat.pow 2 52)
    (h : x.magnitude = exponent * Nat.pow 2 52 + fraction) :
    x.units = if exponent = 0 then fraction
      else (Nat.pow 2 52 + fraction) * Nat.pow 2 (exponent - 1) := by
  have hexponent : x.magnitude / Nat.pow 2 52 = exponent := by
    rw [h, Nat.mul_comm, Nat.mul_add_div (two_pow_pos 52), Nat.div_eq_of_lt hfraction,
      Nat.add_zero]
  have hrest : x.magnitude % Nat.pow 2 52 = fraction := by
    rw [h, Nat.mul_add_mod', Nat.mod_eq_of_lt hfraction]
  rw [units, hexponent, hrest]

/-- What rounds up over the last of the leading bits carries into the exponent. -/
theorem units_ofMagnitude {leading dropped : Nat} (hle : leading ≤ Nat.pow 2 53)
    (hbits : Nat.pow 2 52 ≤ leading ∨ dropped = 0)
    (hlt : dropped * Nat.pow 2 52 + leading < Nat.pow 2 63) :
    (ofMagnitude (dropped * Nat.pow 2 52 + leading)).units = leading * Nat.pow 2 dropped := by
  have hmagnitude := magnitude_ofMagnitude hlt
  have hdouble : Nat.pow 2 53 = 2 * Nat.pow 2 52 := by decide
  rcases Nat.lt_or_ge leading (Nat.pow 2 52) with hsmall | hlarge
  · obtain rfl : dropped = 0 := hbits.resolve_left (Nat.not_le_of_lt hsmall)
    rw [units_eq hsmall hmagnitude, if_pos rfl]
    exact (Nat.mul_one leading).symm
  · rcases Nat.lt_or_eq_of_le hle with hlt | rfl
    · have hsplit : dropped * Nat.pow 2 52 + leading =
          (dropped + 1) * Nat.pow 2 52 + (leading - Nat.pow 2 52) := by
        rw [Nat.succ_mul]
        omega
      rw [units_eq (by omega) (hmagnitude.trans hsplit), if_neg (Nat.succ_ne_zero _),
        Nat.add_sub_cancel' hlarge, Nat.add_sub_cancel]
    · have hsplit : dropped * Nat.pow 2 52 + Nat.pow 2 53 = (dropped + 2) * Nat.pow 2 52 + 0 := by
        rw [Nat.add_mul, hdouble]
      rw [units_eq (two_pow_pos 52) (hmagnitude.trans hsplit), if_neg (Nat.succ_ne_zero _),
        Nat.add_zero]
      show Nat.pow 2 52 * Nat.pow 2 (dropped + 1) = _
      rw [two_pow_mul (show 52 + (dropped + 1) = 53 + dropped by omega), two_pow_mul rfl]

/-- The units of a number are a multiple of a power of two, or they are fewer than `2 ^ 52` times
that power. -/
theorem units_multiple (y : Binary64) (k : Nat) :
    (∃ j, y.units = j * Nat.pow 2 k) ∨ k ≠ 0 ∧ y.units < Nat.pow 2 (52 + k) := by
  obtain ⟨leading, dropped, hunits, -, hlt, -⟩ := y.magnitude_eq
  rcases Nat.lt_or_ge dropped k with hk | hk
  · refine .inr ⟨Nat.ne_of_gt (Nat.zero_lt_of_lt hk), ?_⟩
    calc y.units = leading * Nat.pow 2 dropped := hunits
      _ < Nat.pow 2 53 * Nat.pow 2 dropped := Nat.mul_lt_mul_of_pos_right hlt (two_pow_pos _)
      _ = Nat.pow 2 (53 + dropped) := two_pow_mul rfl
      _ ≤ Nat.pow 2 (52 + k) := Nat.pow_le_pow_right (by decide) (by omega)
  · refine .inl ⟨leading * Nat.pow 2 (dropped - k), ?_⟩
    rw [hunits, Nat.mul_assoc, two_pow_mul (Nat.sub_add_cancel hk)]

/-- An infinity has as many units as `2 ^ 1024`. -/
theorem units_infinity : (ofMagnitude infinityMagnitude).units = Nat.pow 2 2098 := by
  have hsplit : infinityMagnitude = 2046 * Nat.pow 2 52 + Nat.pow 2 52 := by decide
  rw [hsplit, units_ofMagnitude (by decide) (.inl (Nat.le_refl _)) (by decide), two_pow_mul rfl]

/-- No number has more units than an infinity. -/
theorem units_le {y : Binary64} (hy : y.isNaN = false) : y.units ≤ Nat.pow 2 2098 := by
  obtain ⟨leading, dropped, hunits, hmagnitude, hlt, hbits⟩ := y.magnitude_eq
  have hle : y.magnitude ≤ infinityMagnitude := Nat.not_lt.1 (of_decide_eq_false hy)
  have hdouble : Nat.pow 2 53 = 2 * Nat.pow 2 52 := by decide
  have hinfinity : infinityMagnitude = 2047 * Nat.pow 2 52 := rfl
  rw [hmagnitude, hinfinity] at hle
  rw [hunits]
  rcases Nat.lt_or_ge dropped 2046 with hdropped | hdropped
  · calc leading * Nat.pow 2 dropped ≤ Nat.pow 2 53 * Nat.pow 2 2045 :=
          Nat.mul_le_mul (Nat.le_of_lt hlt) (Nat.pow_le_pow_right (by decide) (by omega))
      _ = Nat.pow 2 2098 := two_pow_mul rfl
  · have hpow := two_pow_pos 52
    have hbits' : Nat.pow 2 52 ≤ leading := hbits.resolve_right (by omega)
    obtain rfl : dropped = 2046 := by
      generalize Nat.pow 2 52 = bits at *
      by_contra hne
      have hmul : 2047 * bits ≤ dropped * bits := Nat.mul_le_mul_right _ (by omega)
      omega
    have hleading : leading ≤ Nat.pow 2 52 := by omega
    calc leading * Nat.pow 2 2046 ≤ Nat.pow 2 52 * Nat.pow 2 2046 := Nat.mul_le_mul_right _ hleading
      _ = Nat.pow 2 2098 := two_pow_mul rfl

/-- As long as the exponent has room, what is kept are the units of the number. -/
theorem units_ofFraction (hd : 0 < d) {dropped : Nat}
    (hdropped : dropped = (n * unitsPerOne / d).log2 - 52) (hroom : dropped ≤ 2045) :
    (ofFraction n d).units =
        divideToEven (n * unitsPerOne) (d * Nat.pow 2 dropped) * Nat.pow 2 dropped ∧
      (ofFraction n d).magnitude =
        dropped * Nat.pow 2 52 + divideToEven (n * unitsPerOne) (d * Nat.pow 2 dropped) := by
  obtain ⟨hle, hbits⟩ := kept_bounds hd hdropped
  rw [ofFraction, ← hdropped]
  generalize divideToEven (n * unitsPerOne) (d * Nat.pow 2 dropped) = kept at *
  have hmagnitude : dropped * Nat.pow 2 52 + kept ≤ infinityMagnitude := by
    have hmul : dropped * Nat.pow 2 52 ≤ 2045 * Nat.pow 2 52 := Nat.mul_le_mul_right _ hroom
    have hsum : 2045 * Nat.pow 2 52 + Nat.pow 2 53 = infinityMagnitude := by decide
    exact hsum ▸ Nat.add_le_add hmul hle
  have hsize : dropped * Nat.pow 2 52 + kept < Nat.pow 2 63 :=
    Nat.lt_of_le_of_lt hmagnitude (by decide)
  rw [Nat.min_eq_left hmagnitude]
  refine ⟨units_ofMagnitude hle ?_ hsize, magnitude_ofMagnitude hsize⟩
  rw [or_iff_not_imp_right]
  exact fun hne => (hbits hne).1

/-- Of all numbers of units that a double has, none is nearer to a fraction than the double that it
is rounded to, and this one is even if another one is equally near. -/
theorem ofFraction_nearest (hd : 0 < d) {y : Binary64} (hy : y.isNaN = false) :
    distance (n * unitsPerOne) d (ofFraction n d).units ≤ distance (n * unitsPerOne) d y.units ∧
      (distance (n * unitsPerOne) d y.units = distance (n * unitsPerOne) d (ofFraction n d).units →
        y.units ≠ (ofFraction n d).units → (ofFraction n d).magnitude % 2 = 0) := by
  obtain ⟨dropped, hdropped⟩ : ∃ dropped, dropped = (n * unitsPerOne / d).log2 - 52 := ⟨_, rfl⟩
  obtain ⟨hle, hbits⟩ := kept_bounds hd hdropped
  rcases Nat.lt_or_ge 2045 dropped with hlarge | hroom
  · -- The fraction is beyond all doubles, so the largest one is the nearest.
    have hfull : Nat.pow 2 2098 * d ≤ n * unitsPerOne :=
      Nat.le_trans (Nat.mul_le_mul_right d (Nat.pow_le_pow_right (by decide) (by omega)))
        (hbits (by omega)).2
    have hbeyond : d * Nat.pow 2 1024 ≤ n := by
      have hsplit : Nat.pow 2 1024 * unitsPerOne = Nat.pow 2 2098 := by decide +kernel
      rw [← hsplit, Nat.mul_right_comm] at hfull
      rw [Nat.mul_comm]
      exact Nat.le_of_mul_le_mul_right hfull unitsPerOne_pos
    rw [ofFraction_eq_infinity hd hbeyond, units_infinity]
    rcases Nat.lt_or_eq_of_le (units_le hy) with hlt | heq
    · have hnearer := distance_lt hd hlt hfull
      exact ⟨Nat.le_of_lt hnearer, fun heq => absurd heq (Nat.ne_of_gt hnearer)⟩
    · rw [heq]
      exact ⟨Nat.le_refl _, fun _ hne => absurd rfl hne⟩
  · obtain ⟨hunits, hmagnitude⟩ := units_ofFraction hd hdropped hroom
    have hpos : 0 < d * Nat.pow 2 dropped := Nat.mul_pos hd (two_pow_pos _)
    have hnearest := divideToEven_nearest (n * unitsPerOne) hpos
    rw [hunits, hmagnitude]
    generalize divideToEven (n * unitsPerOne) (d * Nat.pow 2 dropped) = kept at *
    rcases y.units_multiple dropped with ⟨j, hj⟩ | ⟨hne, hsmall⟩
    · -- Both are multiples of the same power of two.
      rw [hj, distance_mul, distance_mul]
      refine ⟨(hnearest j).1, fun heq hne => ?_⟩
      have heven := (hnearest j).2 heq fun hsame => hne (hsame ▸ rfl)
      rw [show Nat.pow 2 52 = 2 * Nat.pow 2 51 by decide, Nat.mul_left_comm, Nat.mul_add_mod]
      exact heven
    · -- The other one is below the least multiple with 53 bits, which is not above the fraction.
      have hmultiple := (hnearest (Nat.pow 2 52)).1
      rw [← distance_mul, ← distance_mul, two_pow_mul rfl] at hmultiple
      have hnearer := Nat.lt_of_le_of_lt hmultiple (distance_lt hd hsmall (hbits hne).2)
      exact ⟨Nat.le_of_lt hnearer, fun heq => absurd heq (Nat.ne_of_gt hnearer)⟩

/-! ## Numbers -/

/-- A sign makes a number no nearer to a fraction that has none. -/
theorem distance_le_signed (n : Nat) (hd : 0 < d) (y : Binary64) :
    distance n d y.units ≤ (y.signedUnits * d - n : Int).natAbs ∧
      ((y.signedUnits * d - n : Int).natAbs = distance n d y.units →
        y.signedUnits = y.units ∨ n = 0) := by
  rw [signedUnits, distance]
  split
  · rcases Nat.eq_zero_or_pos y.units with hzero | hpos
    · rw [hzero]
      omega
    · have hmul := Nat.mul_pos hpos hd
      rw [Int.neg_mul, ← Int.natCast_mul]
      omega
  · rw [← Int.natCast_mul]
    exact ⟨Nat.le_refl _, fun _ => .inl rfl⟩

/-- A decimal is the quotient of its digits and a power of ten, with one of the two powers being
one. -/
theorem toRat_eq (decimal : Decimal) :
    decimal.toRat = ((decimal.significand * Nat.pow 10 decimal.exponent.toNat : Nat) : ℚ) /
      (Nat.pow 10 (-decimal.exponent).toNat : Nat) := by
  obtain ⟨significand, exponent⟩ := decimal
  rw [Decimal.toRat]
  dsimp only
  rcases Int.le_total 0 exponent with h | h
  · obtain ⟨k, rfl⟩ := Int.eq_ofNat_of_zero_le h
    rw [Int.toNat_natCast, Int.toNat_neg_natCast, zpow_natCast]
    push_cast
    simp
  · obtain ⟨k, hk⟩ := Int.eq_ofNat_of_zero_le (Int.neg_nonneg_of_nonpos h)
    obtain rfl : exponent = -(k : Int) := by omega
    rw [Int.neg_neg, Int.toNat_natCast, Int.toNat_neg_natCast, zpow_neg, zpow_natCast]
    push_cast
    simp [div_eq_mul_inv]

/-- Rounding takes a decimal to the double that is nearest to it, and of two such ones to the even
one. -/
theorem isNearest_ofDecimal (decimal : Decimal) : IsNearest decimal (ofDecimal decimal) := by
  obtain ⟨hnumber, hsign⟩ := ofDecimal_sound decimal
  have hvalue := toRat_eq decimal
  have hpos := ten_pow_pos (-decimal.exponent).toNat
  rw [ofDecimal_eq_ofFraction] at hnumber hsign ⊢
  generalize decimal.significand * Nat.pow 10 decimal.exponent.toNat = n at *
  generalize Nat.pow 10 (-decimal.exponent).toNat = d at *
  have hscale : (0 : ℚ) < unitsPerOne * d := by
    exact_mod_cast Nat.mul_pos unitsPerOne_pos hpos
  have hunits : (ofFraction n d).signedUnits = (ofFraction n d).units := by
    rw [signedUnits, hsign]
    rfl
  -- Distances are compared as whole numbers, over the common denominator.
  have hdistance : |(ofFraction n d).toRat - decimal.toRat| =
      (distance (n * unitsPerOne) d (ofFraction n d).units : ℚ) / (unitsPerOne * d) := by
    rw [hvalue, abs_toRat_sub _ hpos, hunits, distance, Int.natCast_mul (ofFraction n d).units]
  refine ⟨hnumber, hsign, fun y hy => ?_, fun y hy => ?_⟩
  · rw [hdistance, hvalue, abs_toRat_sub _ hpos, div_le_div_iff_of_pos_right hscale]
    exact_mod_cast Nat.le_trans (ofFraction_nearest hpos hy).1 (distance_le_signed _ hpos y).1
  · rw [hdistance, hvalue, abs_toRat_sub _ hpos, div_left_inj' hscale.ne']
    intro heq hne
    obtain ⟨hle, htie⟩ := ofFraction_nearest hpos hy
    obtain ⟨hsigned, hsame⟩ := distance_le_signed (n * unitsPerOne) hpos y
    have heq' := Nat.cast_injective heq
    rw [heq'] at hsigned hsame
    have hdist := Nat.le_antisymm hsigned hle
    rcases hsame hdist.symm with hy' | hzero
    · refine htie hdist fun hunits' => hne ?_
      rw [toRat, toRat, hy', hunits, hunits']
    · have hnone : ofFraction n d = ofMagnitude 0 := ofFraction_eq_zero (by
        rw [hzero, Nat.mul_zero]
        exact hpos)
      rw [hnone]
      rfl

end Binary64
end Estree
