import Amend.Double.Nearest

/-!
# What rounding keeps

A ratio that is a magnitude rounds to it (`ofRatio_eq_finite`), and a common factor of the two terms
does not show (`ofRatio_mul_right`). A magnitude is a whole number of units that is short enough for
its exponent (`units_eq_shiftLeft`).
-/

namespace Amend.Double
variable {num den rank a b c : Nat}

theorem roundedQuotient_mul (a : Nat) (hb : 0 < b) : roundedQuotient (a * b) b = a := by
  simp [roundedQuotient, Nat.mul_div_cancel _ hb, hb]

theorem roundedQuotient_mul_right (a b : Nat) (hc : 0 < c) :
    roundedQuotient (a * c) (b * c) = roundedQuotient a b := by
  have hquot : a * c / (b * c) = a / b := Nat.mul_div_mul_right a b hc
  have hrem : a * c % (b * c) = a % b * c := Nat.mul_mod_mul_right c a b
  have hdouble : 2 * (a % b * c) = 2 * (a % b) * c := (Nat.mul_assoc _ _ _).symm
  have hlt : 2 * (a % b) * c < b * c ↔ 2 * (a % b) < b := Nat.mul_lt_mul_right hc
  have heq : 2 * (a % b) * c = b * c ↔ 2 * (a % b) = b := Nat.mul_left_inj (by omega)
  simp only [roundedQuotient, hquot, hrem, hdouble, hlt, heq]

theorem rankOfRatio_mul_right (num den : Nat) (hc : 0 < c) :
    rankOfRatio (num * c) (den * c) = rankOfRatio num den := by
  have hscaled : num * c * one = num * one * c := Nat.mul_right_comm num c one
  have hquot : num * one * c / (den * c) = num * one / den := Nat.mul_div_mul_right _ _ hc
  have hshift (shift : Nat) : (den * c) <<< shift = den <<< shift * c := by
    rw [Nat.shiftLeft_eq, Nat.shiftLeft_eq, Nat.mul_right_comm]
  simp only [rankOfRatio, hscaled, hquot, hshift, roundedQuotient_mul_right _ _ hc]

theorem ofRatio_mul_right (negative : Bool) (num den : Nat) (hc : 0 < c) :
    ofRatio negative (num * c) (den * c) = ofRatio negative num den := by
  simp only [ofRatio, rankOfRatio_mul_right num den hc]

/-- A magnitude is a mantissa below `2 * fractions`, shifted; the rank counts the mantissas of all
shifts before. Only without a shift may the mantissa be below `fractions`. -/
theorem units_eq_shiftLeft (rank : Nat) :
    ∃ mantissa shift, units rank = mantissa <<< shift ∧ rank = shift * fractions + mantissa ∧
      mantissa < 2 * fractions ∧ (shift ≠ 0 → fractions ≤ mantissa) := by
  unfold units
  split
  · next h => exact ⟨rank, 0, rfl, by omega, by omega, fun h' => absurd rfl h'⟩
  · next h =>
    have hmod : rank % fractions < fractions := Nat.mod_lt _ (by decide)
    have hdiv : fractions * (rank / fractions) + rank % fractions = rank := Nat.div_add_mod ..
    have hpos : 0 < rank / fractions := Nat.div_pos (by omega) (by decide)
    have hpred : fractions * (rank / fractions) =
        (rank / fractions - 1) * fractions + fractions := by
      rw [← Nat.succ_mul, Nat.mul_comm]
      congr 1
      omega
    exact ⟨fractions + rank % fractions, rank / fractions - 1, rfl, by omega, by omega, by omega⟩

theorem log2_shiftLeft_sub {mantissa shift : Nat} (hm : mantissa < 2 * fractions)
    (hs : shift ≠ 0 → fractions ≤ mantissa) : (mantissa <<< shift).log2 - 52 = shift := by
  simp only [fractions] at hm hs
  rcases Nat.eq_zero_or_pos shift with rfl | hshift
  · rcases Nat.eq_zero_or_pos mantissa with rfl | hpos
    · rfl
    · have : mantissa.log2 < 53 := (Nat.log2_lt (by omega)).2 (by omega)
      simp only [Nat.shiftLeft_zero]
      omega
  · have hpow : 0 < 2 ^ shift := Nat.two_pow_pos shift
    have hne : mantissa * 2 ^ shift ≠ 0 := Nat.mul_ne_zero (by omega) (by omega)
    have hlog : (mantissa * 2 ^ shift).log2 = 52 + shift := by
      refine (Nat.log2_eq_iff hne).2 ⟨?_, ?_⟩
      · rw [Nat.pow_add]
        exact Nat.mul_le_mul_right _ (by omega)
      · rw [show 52 + shift + 1 = 53 + shift by omega, Nat.pow_add]
        exact Nat.mul_lt_mul_of_pos_right (by omega) hpow
    rw [Nat.shiftLeft_eq, hlog]
    omega

/-- A ratio that is a magnitude has its rank. -/
theorem rankOfRatio_eq (hden : 0 < den) (h : num * one = units rank * den) :
    rankOfRatio num den = rank := by
  obtain ⟨mantissa, shift, hunits, hrank, hm, hs⟩ := units_eq_shiftLeft rank
  have hquot : num * one / den = units rank := by rw [h, Nat.mul_div_cancel _ hden]
  have hlog : (units rank).log2 - 52 = shift := by rw [hunits, log2_shiftLeft_sub hm hs]
  have hscaled : num * one = mantissa * (den <<< shift) := by
    rw [h, hunits, Nat.shiftLeft_eq, Nat.shiftLeft_eq, Nat.mul_right_comm, Nat.mul_assoc]
  have hpos : 0 < den <<< shift := by
    rw [Nat.shiftLeft_eq]
    exact Nat.mul_pos hden (Nat.two_pow_pos shift)
  simp only [rankOfRatio, hquot, hlog]
  rw [hscaled, roundedQuotient_mul mantissa hpos, hrank]

theorem ofRatio_eq_finite {rank : Fin magnitudes} (negative : Bool) (hden : 0 < den)
    (h : num * one = units rank * den) : ofRatio negative num den = .finite negative rank := by
  simp only [ofRatio, rankOfRatio_eq hden h, rank.isLt, dite_true]

theorem units_pos (h : rank ≠ 0) : 0 < units rank := by
  obtain ⟨mantissa, shift, hunits, hrank, -, hs⟩ := units_eq_shiftLeft rank
  have hm : 0 < mantissa := by
    rcases Nat.eq_zero_or_pos shift with rfl | hshift
    · omega
    · exact Nat.lt_of_lt_of_le (by decide) (hs (by omega))
  rw [hunits, Nat.shiftLeft_eq]
  exact Nat.mul_pos hm (Nat.two_pow_pos shift)

/-- All magnitudes are below `2 ^ 1024`. -/
theorem units_lt (rank : Fin magnitudes) : units rank < one <<< 1024 := by
  obtain ⟨mantissa, shift, hunits, hrank, hm, hs⟩ := units_eq_shiftLeft rank
  have hlt := rank.isLt
  simp only [fractions, magnitudes] at hm hs hrank hlt
  have hshift : shift ≤ 2045 := by omega
  rw [hunits, one, ← Nat.shiftLeft_add, Nat.shiftLeft_eq, Nat.shiftLeft_eq, Nat.one_mul]
  calc mantissa * 2 ^ shift
    _ < 2 ^ 53 * 2 ^ shift := Nat.mul_lt_mul_of_pos_right (by omega) (Nat.two_pow_pos shift)
    _ = 2 ^ (53 + shift) := (Nat.pow_add ..).symm
    _ ≤ 2 ^ (places + 1024) := Nat.pow_le_pow_right (by decide) (by simp only [places]; omega)

end Amend.Double
