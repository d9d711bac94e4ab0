import Estree.Number.Shortest

/-!
# Rounding depends on the value alone

A decimal is a whole number and a power of ten, and there are many of one value. Rounding works on
the quotient of two whole numbers, and three things about it have to be known.

> `ofDecimal_shifted`: a decimal is read as the same double whichever of its trailing zeros are
> written out.

> `ofDecimal_eq_ofFraction`: the bound on the power of ten, which keeps the numbers small, does not
> show. Beyond it every decimal is too large for a double, or too small.

> `ofDecimal_exactDecimal`: what is exactly a double is read as this double.

The first two go back to quotients: a common factor changes neither the double nor what is kept of
the quotient (`ofFraction_mul_right`), so that only the value counts (`ofFraction_congr`), and the
powers of ten are moved from one side of the quotient to the other. For the third one the exponent
that rounding finds is that of the double (`log2_sub_eq`), so nothing is cut off.

The shortest decimal of a double is searched for, and each candidate is read back before it is
taken. It is therefore read as the double however it has been found, and nothing needs to be known
of the search (`ofDecimal_shortest`).
-/

namespace Estree

/-- The decimal with more of its trailing zeros written out. -/
def Decimal.shifted (decimal : Decimal) (count : Nat) : Decimal :=
  ⟨decimal.significand * Nat.pow 10 count, decimal.exponent - count⟩

namespace Binary64

variable {n d : Nat}

/-! ## Fractions -/

/-- A common factor does not change the rounded quotient. -/
theorem divideToEven_mul_right (n d : Nat) {k : Nat} (hk : 0 < k) :
    divideToEven (n * k) (d * k) = divideToEven n d := by
  have hlt : 2 * (n % d * k) < d * k ↔ 2 * (n % d) < d := by
    rw [← Nat.mul_assoc]
    exact Nat.mul_lt_mul_right hk
  have heq : 2 * (n % d * k) = d * k ↔ 2 * (n % d) = d := by
    rw [← Nat.mul_assoc]
    exact Nat.mul_left_inj (Nat.ne_of_gt hk)
  simp only [divideToEven, Nat.mul_div_mul_right _ _ hk, Nat.mul_mod_mul_right, hlt, heq]

/-- A fraction may be expanded. -/
theorem ofFraction_mul_right (n d : Nat) {k : Nat} (hk : 0 < k) :
    ofFraction (n * k) (d * k) = ofFraction n d := by
  have hunits : n * k * unitsPerOne = n * unitsPerOne * k := Nat.mul_right_comm ..
  have hdropped (m : Nat) : d * k * m = d * m * k := Nat.mul_right_comm ..
  simp only [ofFraction, hunits, hdropped, Nat.mul_div_mul_right _ _ hk,
    divideToEven_mul_right _ _ hk]

/-- Equal fractions are rounded to the same double. -/
theorem ofFraction_congr {n' d' : Nat} (hd : 0 < d) (hd' : 0 < d') (h : n * d' = n' * d) :
    ofFraction n d = ofFraction n' d' := by
  rw [← ofFraction_mul_right n d hd', ← ofFraction_mul_right n' d' hd, h, Nat.mul_comm d d']

/-- The rounded quotient is the quotient, or one more. -/
theorem div_le_divideToEven (n d : Nat) : n / d ≤ divideToEven n d := by
  rw [divideToEven]
  split
  · exact Nat.le_refl _
  · exact Nat.le_succ _

theorem two_pow_mul {a b c : Nat} (h : a + b = c) : Nat.pow 2 a * Nat.pow 2 b = Nat.pow 2 c := by
  subst h
  exact (Nat.pow_add 2 a b).symm

theorem two_pow_pos (a : Nat) : 0 < Nat.pow 2 a := Nat.pow_pos (by decide)

theorem ten_pow_pos (a : Nat) : 0 < Nat.pow 10 a := Nat.pow_pos (by decide)

theorem unitsPerOne_pos : 0 < unitsPerOne := by decide +kernel

/-- A quotient of so many bits has at least that exponent: its leading 53 bits are kept, so that
what is kept has its full size. -/
theorem le_exponent_add_kept {size : Nat} (h : Nat.pow 2 (size + 52) ≤ n / d) :
    (size + 1) * Nat.pow 2 52 ≤ ((n / d).log2 - 52) * Nat.pow 2 52 +
      divideToEven n (d * Nat.pow 2 ((n / d).log2 - 52)) := by
  generalize hq : n / d = quotient at h ⊢
  have hpos : quotient ≠ 0 := Nat.ne_of_gt (Nat.lt_of_lt_of_le (two_pow_pos _) h)
  have hsize : size + 52 ≤ quotient.log2 := (Nat.le_log2 hpos).2 h
  obtain ⟨dropped, hdropped⟩ : ∃ dropped, quotient.log2 = dropped + 52 :=
    ⟨quotient.log2 - 52, by omega⟩
  have hkept : Nat.pow 2 52 ≤ divideToEven n (d * Nat.pow 2 dropped) := by
    refine Nat.le_trans ?_ (div_le_divideToEven _ _)
    rw [← Nat.div_div_eq_div_mul, hq, Nat.le_div_iff_mul_le (two_pow_pos dropped),
      two_pow_mul (show 52 + dropped = quotient.log2 by omega)]
    exact Nat.log2_self_le hpos
  have hexponent : size * Nat.pow 2 52 ≤ dropped * Nat.pow 2 52 :=
    Nat.mul_le_mul_right _ (by omega)
  rw [hdropped, Nat.add_sub_cancel, Nat.succ_mul]
  exact Nat.add_le_add hexponent hkept

/-- From `2 ^ 1024` on, everything is infinite. -/
theorem ofFraction_eq_infinity (hd : 0 < d) (h : d * Nat.pow 2 1024 ≤ n) :
    ofFraction n d = ofMagnitude infinityMagnitude := by
  have hsplit : Nat.pow 2 1024 * unitsPerOne = Nat.pow 2 (2046 + 52) := by decide +kernel
  generalize Nat.pow 2 1024 = bound at h hsplit
  have hquotient : bound * unitsPerOne ≤ n * unitsPerOne / d := by
    rw [Nat.le_div_iff_mul_le hd, Nat.mul_right_comm, Nat.mul_comm bound]
    exact Nat.mul_le_mul_right _ h
  rw [hsplit] at hquotient
  exact congrArg ofMagnitude (Nat.min_eq_right (le_exponent_add_kept hquotient))

/-- Below half of the least positive double, everything is zero. -/
theorem ofFraction_eq_zero (h : 2 * (n * unitsPerOne) < d) : ofFraction n d = ofMagnitude 0 := by
  have hlt : n * unitsPerOne < d := by omega
  have hlog : Nat.log2 0 = 0 := rfl
  have hkept : divideToEven (n * unitsPerOne) d = 0 := by
    simp only [divideToEven, Nat.div_eq_of_lt hlt, Nat.mod_eq_of_lt hlt, if_pos (Or.inl h)]
  rw [ofFraction, Nat.div_eq_of_lt hlt, hlog]
  show ofMagnitude (min (0 * Nat.pow 2 52 + divideToEven (n * unitsPerOne) (d * 1)) _) = _
  rw [Nat.mul_one, hkept, Nat.zero_mul, Nat.zero_min]

/-! ## Decimals -/

theorem ten_pow_le {a b : Nat} (h : a ≤ b) : Nat.pow 10 a ≤ Nat.pow 10 b :=
  Nat.pow_le_pow_right (by decide) h

theorem ten_pow_mul {a b c : Nat} (h : a + b = c) : Nat.pow 10 a * Nat.pow 10 b = Nat.pow 10 c := by
  subst h
  exact (Nat.pow_add 10 a b).symm

/-- From `10 ^ 310` on, everything is infinite. -/
theorem ofFraction_ten_pow {significand k : Nat} (h : significand ≠ 0) (hk : 310 ≤ k) :
    ofFraction (significand * Nat.pow 10 k) 1 = ofMagnitude infinityMagnitude := by
  refine ofFraction_eq_infinity Nat.one_pos ?_
  have hbase : Nat.pow 2 1024 ≤ Nat.pow 10 310 := by decide +kernel
  have hpow := ten_pow_le hk
  have hmul : Nat.pow 10 k ≤ significand * Nat.pow 10 k :=
    Nat.le_mul_of_pos_left _ (Nat.pos_of_ne_zero h)
  rw [Nat.one_mul]
  exact Nat.le_trans hbase (Nat.le_trans hpow hmul)

/-- Divided by that many tens, everything is zero. -/
theorem ofFraction_div_ten_pow {significand k : Nat}
    (hk : significand.log2 + 331 ≤ k) :
    ofFraction significand (Nat.pow 10 k) = ofMagnitude 0 := by
  refine ofFraction_eq_zero ?_
  have hlt : significand < Nat.pow 2 significand.log2 * 2 := Nat.lt_log2_self
  have hlog : Nat.pow 2 significand.log2 ≤ Nat.pow 10 significand.log2 :=
    Nat.pow_le_pow_left (by decide) _
  have hbase : 4 * unitsPerOne ≤ Nat.pow 10 331 := by decide +kernel
  have hpow := ten_pow_le hk
  rw [← ten_pow_mul (a := significand.log2) (b := 331) rfl] at hpow
  have hunits := unitsPerOne_pos
  -- From here on only the bounds count; the numbers are too large to be written out.
  generalize unitsPerOne = units at hbase hunits ⊢
  generalize Nat.pow 10 331 = tens at hbase hpow
  generalize Nat.pow 2 significand.log2 = twos at hlt hlog
  calc 2 * (significand * units)
      < 2 * (twos * 2 * units) :=
        Nat.mul_lt_mul_of_pos_left (Nat.mul_lt_mul_of_pos_right hlt hunits) (by decide)
    _ = twos * (4 * units) := by
        rw [Nat.mul_assoc twos, ← Nat.mul_assoc 2, Nat.mul_comm 2 twos, Nat.mul_assoc twos,
          ← Nat.mul_assoc 2 2]
    _ ≤ Nat.pow 10 significand.log2 * tens := Nat.mul_le_mul hlog hbase
    _ ≤ Nat.pow 10 k := hpow

/-- The bound on the power of ten does not show. -/
theorem ofDecimal_eq_ofFraction (decimal : Decimal) :
    ofDecimal decimal =
      ofFraction (decimal.significand * Nat.pow 10 decimal.exponent.toNat)
        (Nat.pow 10 (-decimal.exponent).toNat) := by
  obtain ⟨significand, exponent⟩ := decimal
  rw [ofDecimal]
  by_cases h : significand = 0
  · rw [if_pos h, h, Nat.zero_mul, ofFraction_eq_zero]
    rw [Nat.zero_mul, Nat.mul_zero]
    exact ten_pow_pos _
  rw [if_neg h]
  dsimp only
  -- Beyond either bound, the bound and the exponent both give infinity, or both give zero.
  by_cases hlarge : 310 < exponent
  · have hclamped : max (min exponent 310) (-(significand.log2 + 331 : Int)) = (310 : Nat) := by
      omega
    obtain ⟨k, rfl⟩ : ∃ k : Nat, exponent = k := ⟨exponent.toNat, by omega⟩
    rw [hclamped, Int.toNat_natCast, Int.toNat_natCast, Int.toNat_neg_natCast,
      Int.toNat_neg_natCast]
    exact (ofFraction_ten_pow h (Nat.le_refl _)).trans (ofFraction_ten_pow h (by omega)).symm
  · by_cases hsmall : exponent < -(significand.log2 + 331 : Int)
    · have hclamped : max (min exponent 310) (-(significand.log2 + 331 : Int)) =
          -((significand.log2 + 331 : Nat) : Int) := by
        omega
      obtain ⟨k, rfl⟩ : ∃ k : Nat, exponent = -(k : Int) := ⟨(-exponent).toNat, by omega⟩
      rw [hclamped, Int.toNat_neg_natCast, Int.toNat_neg_natCast, Int.neg_neg, Int.neg_neg,
        Int.toNat_natCast, Int.toNat_natCast]
      show ofFraction (significand * 1) _ = ofFraction (significand * 1) _
      rw [Nat.mul_one]
      exact (ofFraction_div_ten_pow (Nat.le_refl _)).trans
        (ofFraction_div_ten_pow (by omega)).symm
    · rw [Int.min_eq_left (by omega), Int.max_eq_left (by omega)]

/-- Trailing zeros make no difference. -/
theorem ofDecimal_shifted (decimal : Decimal) (count : Nat) :
    ofDecimal (decimal.shifted count) = ofDecimal decimal := by
  obtain ⟨significand, exponent⟩ := decimal
  rw [ofDecimal_eq_ofFraction, ofDecimal_eq_ofFraction, Decimal.shifted]
  refine ofFraction_congr (ten_pow_pos _) (ten_pow_pos _) ?_
  dsimp only
  rw [Nat.mul_assoc, Nat.mul_assoc, Nat.mul_assoc, ten_pow_mul rfl, ten_pow_mul rfl,
    ten_pow_mul rfl]
  congr 2
  omega

/-! ## Doubles -/

theorem magnitude_lt (x : Binary64) : x.magnitude < Nat.pow 2 63 := Nat.mod_lt _ (by decide)

/-- A number without sign has the magnitude that it is made of. -/
theorem magnitude_ofMagnitude {m : Nat} (h : m < Nat.pow 2 63) : (ofMagnitude m).magnitude = m := by
  have hsize : Nat.pow 2 63 ≤ UInt64.size := by decide
  rw [magnitude, ofMagnitude, UInt64.toNat_ofNat_of_lt' (by omega), Nat.mod_eq_of_lt h]

/-- Sign and magnitude make up a number. -/
theorem ext_magnitude {x y : Binary64} (hmagnitude : x.magnitude = y.magnitude)
    (hsign : x.isNegative = y.isNegative) : x = y := by
  obtain ⟨x⟩ := x
  obtain ⟨y⟩ := y
  have hx := x.toNat_lt
  have hy := y.toNat_lt
  rw [magnitude, magnitude] at hmagnitude
  rw [isNegative, isNegative, decide_eq_decide] at hsign
  dsimp only at hmagnitude hsign
  have hpow : (2 : Nat) ^ 64 = 2 * Nat.pow 2 63 := by decide
  rw [hpow] at hx hy
  have hmod {n : Nat} (hn : n < 2 * Nat.pow 2 63) :
      n % Nat.pow 2 63 = if Nat.pow 2 63 ≤ n then n - Nat.pow 2 63 else n := by
    split
    · next hle =>
      rw [Nat.mod_eq_sub_mod hle, Nat.mod_eq_of_lt (by omega)]
    · next hlt => exact Nat.mod_eq_of_lt (by omega)
  rw [hmod hx, hmod hy] at hmagnitude
  refine congrArg Binary64.mk (UInt64.toNat_inj.1 ?_)
  split at hmagnitude <;> split at hmagnitude <;> omega

/-- The leading bits of a finite number and their place give its magnitude. -/
theorem magnitude_eq (x : Binary64) :
    ∃ leading dropped, x.units = leading * Nat.pow 2 dropped ∧
      x.magnitude = dropped * Nat.pow 2 52 + leading ∧
      leading < Nat.pow 2 53 ∧ (Nat.pow 2 52 ≤ leading ∨ dropped = 0) := by
  have hmagnitude := Nat.div_add_mod x.magnitude (Nat.pow 2 52)
  have hfraction : x.magnitude % Nat.pow 2 52 < Nat.pow 2 52 := Nat.mod_lt _ (by decide)
  have hdouble : Nat.pow 2 53 = 2 * Nat.pow 2 52 := by decide
  rw [units]
  generalize x.magnitude % Nat.pow 2 52 = fraction at hmagnitude hfraction ⊢
  generalize x.magnitude / Nat.pow 2 52 = exponent at hmagnitude ⊢
  by_cases hexponent : exponent = 0
  · refine ⟨fraction, 0, ?_, ?_, by omega, .inr rfl⟩
    · rw [if_pos hexponent]
      exact (Nat.mul_one _).symm
    · rw [← hmagnitude, hexponent]
  · obtain ⟨dropped, rfl⟩ := Nat.exists_eq_succ_of_ne_zero hexponent
    refine ⟨Nat.pow 2 52 + fraction, dropped, ?_, ?_, by omega, .inl (Nat.le_add_right _ _)⟩
    · rw [if_neg hexponent, Nat.succ_sub_one]
    · rw [← hmagnitude, Nat.mul_succ, Nat.mul_comm]
      omega

/-- Only zeros have no units. -/
theorem units_eq_zero_iff (x : Binary64) : x.units = 0 ↔ x.magnitude = 0 := by
  obtain ⟨leading, dropped, hunits, hmagnitude, -, hle⟩ := x.magnitude_eq
  have hpow := two_pow_pos dropped
  have hbits := two_pow_pos 52
  rw [hunits, hmagnitude]
  constructor
  · intro hzero
    rcases Nat.mul_eq_zero.1 hzero with hleading | hnone
    · have hdropped : dropped = 0 := hle.resolve_left (by omega)
      rw [hleading, hdropped, Nat.zero_mul]
    · omega
  · intro hzero
    have hleading : leading = 0 := (Nat.add_eq_zero_iff.1 hzero).2
    rw [hleading, Nat.zero_mul]

/-- The size of a number tells how many bits follow the leading ones. -/
theorem log2_sub_eq {leading dropped : Nat} (hlt : leading < Nat.pow 2 53)
    (hle : Nat.pow 2 52 ≤ leading ∨ dropped = 0) :
    (leading * Nat.pow 2 dropped).log2 - 52 = dropped := by
  have hpow := two_pow_pos dropped
  rcases hle with hle | rfl
  · have hleading : leading ≠ 0 := Nat.ne_of_gt (Nat.lt_of_lt_of_le (two_pow_pos 52) hle)
    have hne : leading * Nat.pow 2 dropped ≠ 0 := Nat.mul_ne_zero hleading (Nat.ne_of_gt hpow)
    have hlower : 52 + dropped ≤ (leading * Nat.pow 2 dropped).log2 := by
      rw [Nat.le_log2 hne]
      show Nat.pow 2 (52 + dropped) ≤ _
      rw [← two_pow_mul rfl]
      exact Nat.mul_le_mul_right _ hle
    have hupper : (leading * Nat.pow 2 dropped).log2 < 53 + dropped := by
      rw [Nat.log2_lt hne]
      show _ < Nat.pow 2 (53 + dropped)
      rw [← two_pow_mul rfl]
      exact Nat.mul_lt_mul_of_pos_right hlt hpow
    omega
  · have hupper : (leading * Nat.pow 2 0).log2 ≤ 52 := by
      by_cases hzero : leading * Nat.pow 2 0 = 0
      · rw [hzero]
        exact Nat.zero_le _
      · have hone : leading * Nat.pow 2 0 < Nat.pow 2 53 := by
          show leading * 1 < _
          omega
        exact Nat.le_of_lt_succ ((Nat.log2_lt hzero).2 hone)
    omega

/-- A whole number of units is read as the double of these units. -/
theorem ofFraction_units {x : Binary64} (h : x.isFinite = true) :
    ofFraction x.units unitsPerOne = ofMagnitude x.magnitude := by
  obtain ⟨leading, dropped, hunits, hmagnitude, hlt, hle⟩ := x.magnitude_eq
  have hfinite : x.magnitude ≤ infinityMagnitude := Nat.le_of_lt (of_decide_eq_true h)
  have hpow := two_pow_pos dropped
  rw [ofFraction, Nat.mul_div_cancel _ unitsPerOne_pos, hunits, log2_sub_eq hlt hle,
    Nat.mul_comm unitsPerOne, divideToEven_mul_right _ _ unitsPerOne_pos]
  have hexact : divideToEven (leading * Nat.pow 2 dropped) (Nat.pow 2 dropped) = leading := by
    simp only [divideToEven, Nat.mul_div_cancel _ hpow, Nat.mul_mod_left, Nat.mul_zero, hpow,
      true_or, if_true]
  rw [hexact, ← hmagnitude, Nat.min_eq_left hfinite]

/-- A number is read from its exact decimal. -/
theorem ofDecimal_exactDecimal {x : Binary64} (h : x.isFinite = true) :
    ofDecimal x.exactDecimal = ofMagnitude x.magnitude := by
  have hfives : 0 < Nat.pow 5 1074 := by decide +kernel
  have htens : Nat.pow 10 1074 = unitsPerOne * Nat.pow 5 1074 := by decide +kernel
  have hsignificand : x.exactDecimal.significand = x.units * Nat.pow 5 1074 := rfl
  have hexponent : (-x.exactDecimal.exponent).toNat = 1074 := rfl
  have hnone : Nat.pow 10 x.exactDecimal.exponent.toNat = 1 := rfl
  rw [← ofFraction_units h, ofDecimal_eq_ofFraction,
    ← ofFraction_mul_right x.units unitsPerOne hfives, hnone, hsignificand, hexponent, htens,
    Nat.mul_one]

/-- A number without fraction is read from the whole number that it is. -/
theorem ofDecimal_whole {x : Binary64} (h : x.isWhole = true) :
    ofDecimal ⟨x.units / unitsPerOne, 0⟩ = ofMagnitude x.magnitude := by
  obtain ⟨hfinite, hwhole⟩ := Bool.and_eq_true_iff.1 h
  have hunits : x.units / unitsPerOne * unitsPerOne = x.units :=
    Nat.div_mul_cancel (Nat.dvd_of_mod_eq_zero (eq_of_beq hwhole))
  have hone : Nat.pow 10 (Int.toNat 0) = 1 := rfl
  rw [← ofFraction_units hfinite, ofDecimal_eq_ofFraction, Int.neg_zero, hone, Nat.mul_one,
    ← ofFraction_mul_right _ _ unitsPerOne_pos, Nat.one_mul, hunits]

/-- A decimal is only taken if the number is read from it. -/
theorem ofDecimal_readBack? {x : Binary64} {lower upper decimal : Decimal} {prefersUpper : Bool}
    (h : x.readBack? lower upper prefersUpper = some decimal) :
    ofDecimal decimal = ofMagnitude x.magnitude := by
  unfold readBack? at h
  split at h
  · next hlower hupper =>
    cases h
    split
    · exact eq_of_beq hupper
    · exact eq_of_beq hlower
  · next hlower _ =>
    cases h
    exact eq_of_beq hlower
  · next _ hupper =>
    cases h
    exact eq_of_beq hupper
  · cases h

/-- Whatever the bounds that are searched between, a neighbour is one that has been read back. -/
theorem exists_readBack?_eq (tie : Tie) (x : Binary64) (count : Nat) :
    ∃ lower upper prefersUpper,
      x.neighbour? tie count = x.readBack? lower upper prefersUpper :=
  ⟨_, _, _, rfl⟩

/-- A number is read from its shortest decimal, but for the sign. -/
theorem ofDecimal_shortest (tie : Tie) {x : Binary64} (h : x.isFinite = true) :
    ofDecimal (x.shortest tie) = ofMagnitude x.magnitude := by
  rw [shortest]
  cases hfound : (List.range' 1 17).findSome? (neighbour? tie x) with
  | none => exact ofDecimal_exactDecimal h
  | some decimal =>
    obtain ⟨count, -, hcount⟩ := List.exists_of_findSome?_eq_some hfound
    obtain ⟨lower, upper, prefersUpper, hneighbour⟩ := exists_readBack?_eq tie x count
    exact ofDecimal_readBack? (hneighbour.symm.trans hcount)

end Binary64

end Estree
