import Amend.Json.Reader
import Amend.Json.Writer
import Amend.Proofs.Numerals

/-!
# Texts read back

A character as it stands in a text, by itself, by a short escape, by its code or by the two halves
of its code, is read as that character (`readText_writtenChar`). Main statement
(`readText_writtenText`): a written text is read as what it was, with all that follows its closing
quote left.
-/

namespace Amend.Json.Reader
variable {c : Char} {code high low : Nat} {rest : List Char}

theorem hexValue?_digitChar {d : Nat} (h : d < 16) : hexValue? (Nat.digitChar d) = some d :=
  (by decide : ∀ d < 16, hexValue? (Nat.digitChar d) = some d) d h

/-- The four digits of an escaped code give the code. -/
theorem code?_hex (h : code < 65536) :
    ∃ h₁ h₂ h₃ h₄, Numeral.hex 4 code = [h₁, h₂, h₃, h₄] ∧ code? h₁ h₂ h₃ h₄ = some code := by
  refine ⟨_, _, _, _, Numeral.hex_four h, ?_⟩
  have h₁ : code / 4096 < 16 := by omega
  have hmod : ∀ n : Nat, n % 16 < 16 := fun n => Nat.mod_lt n (by decide)
  have hsum : ((code / 4096 * 16 + code / 256 % 16) * 16 + code / 16 % 16) * 16 + code % 16 =
      code := by
    omega
  simp [code?, hexValue?_digitChar h₁, hexValue?_digitChar (hmod _), hsum]

theorem isSurrogate_toNat (c : Char) :
    Encoding.isHigh c.toNat = false ∧ Encoding.isLow c.toNat = false := by
  have hvalid : c.toNat < 0xD800 ∨ 0xDFFF < c.toNat ∧ c.toNat < 0x110000 := c.valid
  simp only [Encoding.isHigh, Encoding.isLow, Bool.and_eq_false_iff, decide_eq_false_iff_not]
  omega

theorem single_toNat (c : Char) : Encoding.single c.toNat = c := by
  obtain ⟨hhigh, hlow⟩ := isSurrogate_toNat c
  simp [Encoding.single, hhigh, hlow, Char.ofNat_toNat]

theorem toNat_lt (c : Char) : c.toNat < 0x110000 := by
  have hvalid : c.toNat < 0xD800 ∨ 0xDFFF < c.toNat ∧ c.toNat < 0x110000 := c.valid
  omega

theorem escaped?_of_shortEscape? {e : Char} (h : shortEscape? c = some e) :
    e ≠ 'u' ∧ escaped? e = some c := by
  unfold shortEscape? at h
  split at h <;> cases h <;> exact ⟨by decide, rfl⟩

theorem ne_of_shortEscape? (h : shortEscape? c = none) : c ≠ '"' ∧ c ≠ '\\' := by
  constructor <;>
  · rintro rfl
    cases h

theorem not_control (h : ¬ c < ' ') : ¬ c ≤ '\x1f' := by
  intro hle
  have hle' : c.toNat ≤ 31 := hle
  have hge : ¬ c.toNat < 32 := h
  omega

section
variable (opened : Nat) (hrest : rest ≠ [])

theorem readText_closing (rest : List Char) :
    readText opened none ('"' :: rest) = .ok ([], rest) := by
  rw [readText.eq_def]
  rfl

theorem readText_plain (hquote : c ≠ '"') (hslash : c ≠ '\\') (hcontrol : ¬ c ≤ '\x1f') :
    readText opened none (c :: rest) = prepend c (readText opened none rest) := by
  rw [readText.eq_def]
  simp [hquote, hslash, hcontrol, release]

theorem readText_short {e : Char} (h : shortEscape? c = some e) :
    readText opened none ('\\' :: e :: rest) = prepend c (readText opened none rest) := by
  obtain ⟨hne, hescaped⟩ := escaped?_of_shortEscape? h
  rw [readText.eq_def]
  simp [hne, hescaped, release]

include hrest

/-- The escape of a code that is no first half of a pair. -/
theorem readText_unitEscape (hcode : code < 65536) (hhigh : Encoding.isHigh code = false) :
    readText opened none (unitEscape code ++ rest) =
      prepend (Encoding.single code) (readText opened none rest) := by
  obtain ⟨h₁, h₂, h₃, h₄, hhex, hread⟩ := code?_hex hcode
  rw [unitEscape, hhex, readText.eq_def]
  simp [hread, hhigh, hrest]

/-- The escapes of the two halves of a pair. -/
theorem readText_pair (hhigh : Encoding.isHigh high) (hlow : Encoding.isLow low) :
    readText opened none (unitEscape high ++ (unitEscape low ++ rest)) =
      prepend (Encoding.paired high low) (readText opened none rest) := by
  have hbounds : high < 65536 ∧ low < 65536 := by
    simp only [Encoding.isHigh, Encoding.isLow, Bool.and_eq_true, decide_eq_true_eq] at hhigh hlow
    omega
  obtain ⟨h₁, h₂, h₃, h₄, hhex, hread⟩ := code?_hex hbounds.1
  obtain ⟨l₁, l₂, l₃, l₄, hhex', hread'⟩ := code?_hex hbounds.2
  have hsecond : readText opened (some high) (unitEscape low ++ rest) =
      prepend (Encoding.paired high low) (readText opened none rest) := by
    rw [unitEscape, hhex', readText.eq_def]
    simp [hread', hlow, hrest]
  rw [← hsecond, unitEscape, hhex, readText.eq_def]
  simp [hread, hhigh, unitEscape]

/-- The escape of a character by its code, in one part or in two. -/
theorem readText_codeEscape (c : Char) :
    readText opened none (codeEscape c.toNat ++ rest) = prepend c (readText opened none rest) := by
  simp only [codeEscape]
  split
  · next hlt => rw [readText_unitEscape opened hrest hlt (isSurrogate_toNat c).1, single_toNat]
  · next hge =>
    have hmax := toNat_lt c
    generalize hhigh : 0xD800 + (c.toNat - 0x10000) / 0x400 = high
    generalize hlow : 0xDC00 + (c.toNat - 0x10000) % 0x400 = low
    have hisHigh : Encoding.isHigh high := by
      simp only [Encoding.isHigh, Bool.and_eq_true, decide_eq_true_eq]
      omega
    have hisLow : Encoding.isLow low := by
      simp only [Encoding.isLow, Bool.and_eq_true, decide_eq_true_eq]
      omega
    have hpaired : Encoding.paired high low = c := by
      have hcode : 0x10000 + (high - 0xD800) * 0x400 + (low - 0xDC00) = c.toNat := by omega
      rw [Encoding.paired, hcode, Char.ofNat_toNat]
    rw [List.append_assoc, readText_pair opened hrest hisHigh hisLow, hpaired]

theorem readText_writtenChar (asciiOnly : Bool) (c : Char) :
    readText opened none (writtenChar asciiOnly c ++ rest) =
      prepend c (readText opened none rest) := by
  unfold writtenChar
  split
  · next e he => exact readText_short opened he
  · next hnone =>
    obtain ⟨hquote, hslash⟩ := ne_of_shortEscape? hnone
    split
    · exact readText_codeEscape opened hrest c
    · next hplain =>
      simp only [Bool.or_eq_true, decide_eq_true_eq, not_or] at hplain
      exact readText_plain opened hquote hslash (not_control hplain.1)

end

/-- The characters of a written text and its closing quote. -/
theorem readText_writtenText (opened : Nat) (asciiOnly : Bool) (s rest : List Char) :
    readText opened none (s.flatMap (writtenChar asciiOnly) ++ '"' :: rest) = .ok (s, rest) := by
  induction s with
  | nil => exact readText_closing opened rest
  | cons c s ih =>
    rw [List.flatMap_cons, List.append_assoc, readText_writtenChar opened (by simp), ih]
    rfl

end Amend.Json.Reader
