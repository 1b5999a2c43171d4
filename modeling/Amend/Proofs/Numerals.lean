import Amend.Text.Numeral

/-!
# Numerals read back

The digits of a number have the number for their value (`value_ofNat`) and no zero before them
(`head_ofNat`). Zeros behind a row of digits multiply its value and its length in step
(`value_append`, `length_mul_pow`), and a code of at most four hexadecimal digits is padded to
exactly four (`hex_four`).
-/

namespace Amend.Numeral
variable {n k : Nat} {ds es : List Char} {c : Char}

theorem value_eq (ds : List Char) : value ds = Nat.ofDigitChars 10 ds 0 := rfl

theorem value_ofNat (n : Nat) : value (ofNat n) = n := Nat.ofDigitChars_ten_toDigits

theorem isDigit_of_mem_ofNat (h : c ∈ ofNat n) : isDigit c :=
  Nat.isDigit_of_mem_toDigits (by decide) (by decide) h

theorem ofNat_ne_nil (n : Nat) : ofNat n ≠ [] := Nat.toDigits_ne_nil

theorem length_pos (n : Nat) : 0 < length n := Nat.length_toDigits_pos

theorem length_le_iff (hk : 0 < k) : length n ≤ k ↔ n < Nat.pow 10 k :=
  Nat.length_toDigits_le_iff (by decide) hk

theorem lt_length_of_le (hk : 0 < k) (h : Nat.pow 10 k ≤ n) : k < length n :=
  Nat.lt_of_not_le fun hle => Nat.not_lt.2 h ((length_le_iff hk).1 hle)

theorem value_append : value (ds ++ es) = value ds * Nat.pow 10 es.length + value es := by
  rw [value_eq, Nat.ofDigitChars_append, Nat.ofDigitChars_eq_ofDigitChars_zero, Nat.mul_comm]
  rfl

theorem value_zeros_append (k : Nat) : value (List.replicate k '0' ++ ds) = value ds := by
  rw [value_eq, Nat.ofDigitChars_append, Nat.ofDigitChars_replicate_zero, Nat.mul_zero]
  rfl

theorem value_append_zeros (k : Nat) :
    value (ds ++ List.replicate k '0') = value ds * Nat.pow 10 k := by
  rw [value_append, value_eq (List.replicate k '0'), Nat.ofDigitChars_replicate_zero,
    List.length_replicate]
  omega

/-- Only the numeral of zero starts with a zero. -/
theorem head_ofNat (hn : n ≠ 0) (h : ofNat n = c :: ds) : c ≠ '0' := by
  induction n using Nat.base_induction 10 (by decide) generalizing c ds with
  | single m hm =>
    rw [ofNat, Nat.toDigits_of_lt_base hm] at h
    obtain ⟨rfl, -⟩ := List.cons.inj h
    simpa using hn
  | digit m k hk hm ih =>
    rw [ofNat, ← Nat.toDigits_append_toDigits (by decide) hm hk] at h
    rcases hds : Nat.toDigits 10 m with - | ⟨d, ds'⟩
    · exact absurd hds Nat.toDigits_ne_nil
    · rw [hds, List.cons_append] at h
      obtain ⟨rfl, -⟩ := List.cons.inj h
      exact ih (by omega) hds

theorem ofNat_mul_pow (hn : n ≠ 0) (k : Nat) :
    ofNat (n * Nat.pow 10 k) = ofNat n ++ List.replicate k '0' := by
  induction k with
  | zero => simp
  | succ k ih =>
    have hpos : 0 < n * Nat.pow 10 k := Nat.mul_pos (by omega) (Nat.pow_pos (by decide))
    have hmul : n * Nat.pow 10 (k + 1) = 10 * (n * Nat.pow 10 k) + 0 := by
      calc n * Nat.pow 10 (k + 1)
        _ = n * Nat.pow 10 k * 10 := (Nat.mul_assoc n (Nat.pow 10 k) 10).symm
        _ = 10 * (n * Nat.pow 10 k) + 0 := Nat.mul_comm _ _
    rw [ofNat, hmul, ← Nat.toDigits_append_toDigits (by decide) hpos (by decide), ← ofNat, ih,
      List.replicate_succ', List.append_assoc, Nat.toDigits_zero]

theorem length_mul_pow (hn : n ≠ 0) (k : Nat) : length (n * Nat.pow 10 k) = length n + k := by
  rw [length, ofNat_mul_pow hn, List.length_append, List.length_replicate, length]

theorem toDigits_sixteen (n : Nat) :
    Nat.toDigits 16 n = if n < 16 then [Nat.digitChar n]
      else Nat.toDigits 16 (n / 16) ++ [Nat.digitChar (n % 16)] :=
  Nat.toDigits_eq_if (by decide)

/-- A code below 65536 takes four hexadecimal digits, with zeros before it. -/
theorem hex_four (h : n < 65536) :
    hex 4 n = [Nat.digitChar (n / 4096), Nat.digitChar (n / 256 % 16), Nat.digitChar (n / 16 % 16),
      Nat.digitChar (n % 16)] := by
  have h₁ : n / 16 / 16 = n / 256 := by omega
  have h₂ : n / 256 / 16 = n / 4096 := by omega
  have h₃ : n / 4096 < 16 := by omega
  by_cases ha : n < 16
  · have : n / 4096 = 0 ∧ n / 256 = 0 ∧ n / 16 = 0 := by omega
    simp [hex, toDigits_sixteen n, ha, this, Nat.mod_eq_of_lt ha, List.replicate]
  by_cases hb : n / 16 < 16
  · have : n / 4096 = 0 ∧ n / 256 = 0 := by omega
    simp [hex, toDigits_sixteen n, toDigits_sixteen (n / 16), ha, hb, this, Nat.mod_eq_of_lt hb,
      List.replicate]
  by_cases hc : n / 256 < 16
  · have : n / 4096 = 0 := by omega
    simp [hex, toDigits_sixteen n, toDigits_sixteen (n / 16), toDigits_sixteen (n / 256), h₁, ha,
      hb, hc, this, Nat.mod_eq_of_lt hc]
  · simp [hex, toDigits_sixteen n, toDigits_sixteen (n / 16), toDigits_sixteen (n / 256),
      toDigits_sixteen (n / 4096), h₁, h₂, h₃, ha, hb, hc]

end Amend.Numeral
