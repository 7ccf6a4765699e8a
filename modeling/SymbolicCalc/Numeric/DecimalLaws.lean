import SymbolicCalc.Numeric.Decimal

/-!
# Decimals read back

The shortest decimal of a double is read as that double: `ordinal_shortest`. The search keeps only
decimals that are read as the double, so what has to be proved concerns the decimal with all digits: the
value of a finite double is a whole number of units, and the double closest to it is the double itself.
-/

namespace SymbolicCalc

namespace Binary64

/-! ## Rounding -/

/-- Rounding depends on the quotient alone. -/
theorem roundHalfEven_mul_right (num den : Nat) {c : Nat} (hc : 0 < c) :
    roundHalfEven (num * c) (den * c) = roundHalfEven num den := by
  have hdiv : num * c / (den * c) = num / den := Nat.mul_div_mul_right _ _ hc
  have hmod : num * c % (den * c) = num % den * c := Nat.mul_mod_mul_right c num den
  have hlt (a b : Nat) : a * c < b * c ↔ a < b := Nat.mul_lt_mul_right hc
  simp only [roundHalfEven, hdiv, hmod, ← Nat.mul_assoc, hlt]

/-- An exact quotient is not changed by rounding. -/
theorem roundHalfEven_mul_self (m : Nat) {den : Nat} (hden : 0 < den) :
    roundHalfEven (m * den) den = m := by
  simp [roundHalfEven, Nat.mul_div_cancel m hden, hden]

/-- The closest double depends on the quotient alone. -/
theorem nearestOrdinal_mul_right (num den : Nat) {c : Nat} (hc : 0 < c) :
    nearestOrdinal (num * c) (den * c) = nearestOrdinal num den := by
  have hdiv : num * c / (den * c) = num / den := Nat.mul_div_mul_right _ _ hc
  simp only [nearestOrdinal, hdiv]
  rw [Nat.mul_right_comm den c, roundHalfEven_mul_right _ _ hc]

/-- Powers of five and of two make up a power of ten. -/
theorem nearestOrdinal_five_two (num k : Nat) :
    nearestOrdinal (num * 5 ^ k * 2 ^ k) (10 ^ k) = nearestOrdinal num 1 := by
  have hscale := nearestOrdinal_mul_right num 1 (Nat.pow_pos (n := k) (by decide : 0 < 10))
  rw [Nat.mul_assoc, ← Nat.mul_pow, ← hscale, Nat.one_mul]

/-! ## Units -/

/-- The part of an ordinal that is left when its scale is taken away is the significand of the double: it
has 53 bits, or fewer if the scale is zero. -/
theorem significand_bounds (n : Nat) :
    n - scaleOf n * 2 ^ 52 < 2 ^ 53 ∧
      (scaleOf n ≠ 0 → 2 ^ 52 ≤ n - scaleOf n * 2 ^ 52) ∧ scaleOf n * 2 ^ 52 ≤ n := by
  simp only [scaleOf]
  omega

/-- A power of two adds its exponent to the logarithm. -/
theorem log2_mul_two_pow {m k : Nat} (hm : m ≠ 0) : (m * 2 ^ k).log2 = m.log2 + k := by
  induction k with
  | zero => simp
  | succ k ih =>
    have hne : m * 2 ^ k ≠ 0 := Nat.mul_ne_zero hm (Nat.pos_iff_ne_zero.1 (Nat.two_pow_pos k))
    rw [Nat.pow_succ, ← Nat.mul_assoc, Nat.mul_comm _ 2, Nat.log2_two_mul hne, ih]
    rfl

/-- The double closest to the value of a finite double is the double itself. -/
theorem nearestOrdinal_unitsOf {n : Nat} (h : n ≤ infinityOrdinal) :
    nearestOrdinal (unitsOf n) 1 = n := by
  obtain ⟨hlt, hge, hle⟩ := significand_bounds n
  have hscale : (unitsOf n / 1).log2 - 52 = scaleOf n := by
    rw [Nat.div_one, unitsOf]
    by_cases hzero : scaleOf n = 0
    · rw [hzero]
      simp only [Nat.zero_mul, Nat.sub_zero, Nat.pow_zero, Nat.mul_one]
      rw [hzero] at hlt
      by_cases hn : n = 0
      · simp [hn]
      · have := (Nat.log2_lt hn).2 (by simpa using hlt : n < 2 ^ 53)
        omega
    · have hbig := hge hzero
      have hne : n - scaleOf n * 2 ^ 52 ≠ 0 := by omega
      have hlow : 52 ≤ (n - scaleOf n * 2 ^ 52).log2 := (Nat.le_log2 hne).2 hbig
      have hhigh := (Nat.log2_lt hne).2 hlt
      rw [log2_mul_two_pow hne]
      omega
  simp only [nearestOrdinal, hscale, Nat.one_mul]
  rw [unitsOf, roundHalfEven_mul_self _ (Nat.two_pow_pos _), Nat.sub_add_cancel hle]
  exact Nat.min_eq_left h

/-- Only zero has no units. -/
theorem unitsOf_pos {n : Nat} (h : n ≠ 0) : 0 < unitsOf n := by
  obtain ⟨hlt, hge, hle⟩ := significand_bounds n
  refine Nat.mul_pos ?_ (Nat.two_pow_pos _)
  by_cases hzero : scaleOf n = 0
  · rw [hzero]
    omega
  · have := hge hzero
    omega

end Binary64

namespace Decimal

open Binary64

/-- The last case of the definition: a decimal with some places that is not too small. -/
theorem ordinal_of_places {coefficient places : Nat} (hc : coefficient ≠ 0) (hplaces : 0 < places)
    (hlow : places ≤ coefficient.log2 / 3 + 401) :
    ordinal ⟨coefficient, -(places : Int)⟩ = nearestOrdinal (coefficient * 2 ^ 1074) (10 ^ places) := by
  have h400 : ¬ 400 < -(places : Int) := by omega
  have hsmall : ¬ -(places : Int) + (coefficient.log2 / 3 + 1 : Nat) < -400 := by omega
  have hneg : ¬ 0 ≤ -(places : Int) := by omega
  simp only [ordinal, if_neg hc, if_neg h400, if_neg hsmall, if_neg hneg, Int.neg_neg, Int.toNat_natCast]

/-- The decimal with all digits is read as the double it comes from. -/
theorem ordinal_exact {n : Nat} (h : n < infinityOrdinal) : (exact n).ordinal = n := by
  by_cases hn : n = 0
  · subst hn
    decide +kernel
  · have hpos := unitsOf_pos hn
    have hne : unitsOf n * 5 ^ 1074 ≠ 0 := Nat.mul_ne_zero (by omega) (by decide +kernel)
    have hlog : 2400 ≤ (unitsOf n * 5 ^ 1074).log2 := by
      refine (Nat.le_log2 hne).2 (Nat.le_trans ?_ (Nat.le_mul_of_pos_left _ hpos))
      decide +kernel
    have hread := ordinal_of_places hne (by decide : 0 < 1074) (by omega)
    have hunits := nearestOrdinal_five_two (unitsOf n) 1074
    exact hread.trans (hunits.trans (nearestOrdinal_unitsOf (Nat.le_of_lt h)))

/-- The shortest decimal of a finite double is read as that double. -/
theorem ordinal_shortest {n : Nat} (h : n < infinityOrdinal) : (shortest n).ordinal = n := by
  unfold shortest
  split
  next hn => rw [hn]; rfl
  next hn =>
    simp only
    cases hsearch : (List.range 17).findSome? fun digits =>
        (neighbours (unitsOf n * 5 ^ 1074) (digitCount (unitsOf n * 5 ^ 1074)) (digits + 1)).find?
          fun d => d.ordinal = n with
    | none => exact ordinal_exact h
    | some d =>
      obtain ⟨digits, _, hfind⟩ := List.exists_of_findSome?_eq_some hsearch
      simpa using List.find?_some hfind

end Decimal

end SymbolicCalc
