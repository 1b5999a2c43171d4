import Amend.Double.Decimal
import Amend.Proofs.Numerals
import Amend.Proofs.Rounding

/-!
# Decimals that read back

The number of a decimal depends on its value alone, not on the zeros at its end
(`ofDecimal_mul_pow`). Main statement (`ofDecimal_shortest`): the shortest decimal of a magnitude
reads as that magnitude. The search takes nothing that does not, and should it find nothing, the
exact decimal reads as the magnitude too (`readsAs_exactDecimal`).
-/

namespace Amend.Double
variable {digits : Nat} {rank : Fin magnitudes} {d : Decimal}

theorem ten_pow_pos (k : Nat) : 0 < Nat.pow 10 k := Nat.pow_pos (by decide)

theorem five_pow_pos (k : Nat) : 0 < Nat.pow 5 k := Nat.pow_pos (by decide)

theorem ten_pow_add (j k : Nat) : Nat.pow 10 (j + k) = Nat.pow 10 j * Nat.pow 10 k :=
  Nat.pow_add 10 j k

/-- Zeros at the end of the digits are made up for by the exponent. -/
theorem ofDecimal_mul_pow (negative : Bool) (digits k : Nat) (exponent : Int) :
    ofDecimal negative (digits * Nat.pow 10 k) (exponent - k) =
      ofDecimal negative digits exponent := by
  rcases Nat.eq_zero_or_pos digits with rfl | hpos
  · simp [ofDecimal]
  have hne : digits ≠ 0 := by omega
  have hzero : digits * Nat.pow 10 k = 0 ↔ digits = 0 := by
    have := Nat.mul_pos hpos (ten_pow_pos k)
    omega
  have horder : (Numeral.length (digits * Nat.pow 10 k) : Int) + (exponent - k) =
      Numeral.length digits + exponent := by
    rw [Numeral.length_mul_pow hne]
    omega
  have hratio : (if 0 ≤ exponent - k then
        ofRatio negative (digits * Nat.pow 10 k * Nat.pow 10 (exponent - k).toNat) 1
      else ofRatio negative (digits * Nat.pow 10 k) (Nat.pow 10 (exponent - k).natAbs)) =
      if 0 ≤ exponent then ofRatio negative (digits * Nat.pow 10 exponent.toNat) 1
      else ofRatio negative digits (Nat.pow 10 exponent.natAbs) := by
    by_cases hexponent : 0 ≤ exponent
    · by_cases hdiff : 0 ≤ exponent - k
      · have hsum : exponent.toNat = k + (exponent - k).toNat := by omega
        rw [if_pos hdiff, if_pos hexponent, hsum, ten_pow_add, Nat.mul_assoc]
      · have hsum : k = exponent.toNat + (exponent - k).natAbs := by omega
        have hpow : digits * Nat.pow 10 k =
            digits * Nat.pow 10 exponent.toNat * Nat.pow 10 (exponent - k).natAbs := by
          rw [Nat.mul_assoc, ← ten_pow_add, ← hsum]
        rw [if_neg hdiff, if_pos hexponent, hpow]
        exact (congrArg _ (Nat.one_mul _).symm).trans (ofRatio_mul_right _ _ _ (ten_pow_pos _))
    · have hdiff : ¬ 0 ≤ exponent - k := by omega
      have hsum : (exponent - k).natAbs = exponent.natAbs + k := by omega
      rw [if_neg hdiff, if_neg hexponent, hsum, ten_pow_add]
      exact ofRatio_mul_right _ _ _ (ten_pow_pos k)
  simp only [ofDecimal, hzero, horder, hratio]

/-- A sign goes with the number. -/
theorem ofDecimal_of_readsAs (h : d.readsAs rank) (negative : Bool) :
    ofDecimal negative d.digits d.exponent = .finite negative rank := by
  have hpositive : ofDecimal false d.digits d.exponent = .finite false rank := of_decide_eq_true h
  have hratio (num den : Nat) (h : ofRatio false num den = .finite false rank) :
      ofRatio negative num den = .finite negative rank := by
    simp only [ofRatio] at h ⊢
    split at h
    · next hlt =>
      cases h
      rw [dif_pos hlt]
    · cases h
  simp only [ofDecimal] at hpositive ⊢
  split at hpositive
  · next hzero =>
    rw [if_pos hzero]
    cases hpositive
    rfl
  · next hzero =>
    rw [if_neg hzero]
    split at hpositive
    · cases hpositive
    · next hlarge =>
      rw [if_neg hlarge]
      split at hpositive
      · next hexponent => rw [if_pos hexponent, hratio _ _ hpositive]
      · next hexponent => rw [if_neg hexponent, hratio _ _ hpositive]

theorem digits_ne_zero_of_readsAs (h : d.readsAs rank) (hrank : rank.val ≠ 0) : d.digits ≠ 0 := by
  intro hzero
  have hread : ofDecimal false d.digits d.exponent = .finite false rank := of_decide_eq_true h
  simp only [ofDecimal, hzero, true_or, if_true, zero] at hread
  cases hread
  exact hrank rfl

theorem one_mul_five_pow : one * Nat.pow 5 places = Nat.pow 10 places := by
  decide +kernel

theorem ofDecimal_of_order {negative : Bool} {digits : Nat} {exponent : Int} (hdigits : digits ≠ 0)
    (hlow : -330 ≤ (Numeral.length digits : Int) + exponent)
    (hhigh : (Numeral.length digits : Int) + exponent ≤ 310) (hexponent : exponent < 0) :
    ofDecimal negative digits exponent =
      ofRatio negative digits (Nat.pow 10 exponent.natAbs) := by
  have hzero : ¬ (digits = 0 ∨ (Numeral.length digits : Int) + exponent < -330) := by omega
  have hlarge : ¬ 310 < (Numeral.length digits : Int) + exponent := by omega
  have hneg : ¬ 0 ≤ exponent := by omega
  simp only [ofDecimal, if_neg hzero, if_neg hlarge, if_neg hneg]

/-- The exact decimal of a magnitude lies well within the orders that are looked at. -/
theorem readsAs_exactDecimal (rank : Fin magnitudes) : (exactDecimal rank).readsAs rank := by
  refine decide_eq_true ?_
  change ofDecimal false (units rank * Nat.pow 5 places) (-places) = .finite false rank
  rcases Nat.eq_zero_or_pos rank.val with hrank | hrank
  · have hunits : units rank = 0 := by rw [hrank]; rfl
    have hzero : rank = ⟨0, by decide⟩ := Fin.ext hrank
    generalize Nat.pow 5 places = five
    rw [hunits, Nat.zero_mul, hzero]
    simp only [ofDecimal, true_or, if_true, zero]
  have hunits : 0 < units rank := units_pos (by omega)
  have hfive := five_pow_pos places
  have hdigits : units rank * Nat.pow 5 places ≠ 0 := Nat.mul_ne_zero (by omega) (by omega)
  have hlow : 750 < Numeral.length (units rank * Nat.pow 5 places) := by
    have hle : Nat.pow 5 places ≤ units rank * Nat.pow 5 places := Nat.le_mul_of_pos_left _ hunits
    refine Numeral.lt_length_of_le (by decide) (Nat.le_trans ?_ hle)
    decide +kernel
  have hhigh : Numeral.length (units rank * Nat.pow 5 places) ≤ 1383 := by
    refine (Numeral.length_le_iff (by decide)).2 ?_
    refine Nat.lt_of_lt_of_le (Nat.mul_lt_mul_of_pos_right (units_lt rank) hfive) ?_
    decide +kernel
  have hratio : units rank * Nat.pow 5 places * one = units rank * Nat.pow 10 places := by
    rw [Nat.mul_assoc, Nat.mul_comm (Nat.pow 5 places), one_mul_five_pow]
  have hplaces : (places : Int) = 1074 := rfl
  have habs : (-(places : Int)).natAbs = places := rfl
  rw [ofDecimal_of_order hdigits (by omega) (by omega) (by omega), habs]
  exact ofRatio_eq_finite false (ten_pow_pos places) hratio

theorem readsAs_of_nearestOf {count : Nat} (h : nearestOf rank count = some d) : d.readsAs rank :=
  List.find?_some (p := fun d : Decimal => d.readsAs rank) h

theorem readsAs_shortest (rank : Fin magnitudes) : (shortest rank).readsAs rank := by
  unfold shortest
  rcases hfound : (List.range 17).findSome? fun n => nearestOf rank (n + 1) with - | d
  · exact readsAs_exactDecimal rank
  · obtain ⟨n, -, hn⟩ := List.exists_of_findSome?_eq_some hfound
    exact readsAs_of_nearestOf hn

/-- The shortest decimal of a magnitude reads as that magnitude, with either sign. -/
theorem ofDecimal_shortest (negative : Bool) (rank : Fin magnitudes) :
    ofDecimal negative (shortest rank).digits (shortest rank).exponent = .finite negative rank :=
  ofDecimal_of_readsAs (readsAs_shortest rank) negative

section
variable {whole fraction : List Char} {n : Nat} (negative : Bool) (exponent : Int)

theorem ofParts_of_append_eq (h : whole ++ fraction = Numeral.ofNat n) :
    ofParts negative whole fraction exponent =
      ofDecimal negative n (exponent - fraction.length) := by
  rw [ofParts, h, Numeral.value_ofNat]

/-- Zeros after the point and before the digits. -/
theorem ofParts_zeros_digits (n k : Nat) :
    ofParts negative ['0'] (List.replicate k '0' ++ Numeral.ofNat n) 0 =
      ofDecimal negative n (-(k + Numeral.length n : Nat)) := by
  have hvalue : Numeral.value (['0'] ++ (List.replicate k '0' ++ Numeral.ofNat n)) = n :=
    (Numeral.value_zeros_append (k + 1)).trans (Numeral.value_ofNat n)
  have hlength : (List.replicate k '0' ++ Numeral.ofNat n).length = k + Numeral.length n := by
    rw [List.length_append, List.length_replicate, Numeral.length]
  rw [ofParts, hvalue, hlength, Int.zero_sub]

/-- Zeros behind the digits and before the point. -/
theorem ofParts_digits_zeros (n k : Nat) :
    ofParts negative (Numeral.ofNat n ++ List.replicate k '0') ['0'] 0 =
      ofDecimal negative n k := by
  have hvalue : Numeral.value (Numeral.ofNat n ++ List.replicate k '0' ++ ['0']) =
      n * Nat.pow 10 (k + 1) := by
    rw [List.append_assoc, ← List.replicate_succ', Numeral.value_append_zeros, Numeral.value_ofNat]
  have hexponent : (0 : Int) - (['0'] : List Char).length = (k : Int) - (k + 1 : Nat) := by
    simp only [List.length_singleton]
    omega
  rw [ofParts, hvalue, hexponent, ofDecimal_mul_pow]

end

end Amend.Double
