import Amend.Json.Reader
import Amend.Json.Writer
import Amend.Proofs.Decimals

/-!
# Numbers read back

A written number is read as what it was, up to a rest that could not be a part of it
(`endsNumber`). Integers: `readScalar_ofInt`. Binary64 numbers, in positional notation or with an
exponent, infinities and `nan`: `readScalar_writtenDouble`.
-/

namespace Amend.Json.Reader

/-- Whether a rest cannot go on with a row of digits. -/
def endsDigits (rest : List Char) : Bool := rest.head?.all fun c => !Numeral.isDigit c

/-- Whether a rest cannot go on with a number. -/
def endsNumber (rest : List Char) : Bool :=
  rest.head?.all fun c => !Numeral.isDigit c && c ≠ '.' && c ≠ 'e' && c ≠ 'E'

/-- Digits that may stand before a point: a zero alone, or digits that start with another one. -/
def IsWhole (ds : List Char) : Prop :=
  ds = ['0'] ∨ (∀ c ∈ ds, Numeral.isDigit c) ∧ ∃ c, ds.head? = some c ∧ c ≠ '0'

variable {ds whole fraction rest : List Char} {c : Char} {n : Nat}

theorem endsDigits_of_endsNumber (h : endsNumber rest) : endsDigits rest := by
  rcases rest with - | ⟨c, rest⟩
  · rfl
  · simp only [endsNumber, List.head?_cons, Option.all_some, Bool.and_eq_true] at h
    simpa [endsDigits] using h.1.1.1

theorem spanDigits_append (hds : ∀ c ∈ ds, Numeral.isDigit c) (hrest : endsDigits rest) :
    spanDigits (ds ++ rest) = (ds, rest) := by
  have htake : rest.takeWhile Numeral.isDigit = [] ∧ rest.dropWhile Numeral.isDigit = rest := by
    rcases rest with - | ⟨c, rest⟩
    · exact ⟨rfl, rfl⟩
    · have hc : Numeral.isDigit c = false := by simpa [endsDigits] using hrest
      simp [hc]
  rw [spanDigits, List.takeWhile_append_of_pos hds, List.dropWhile_append_of_pos hds, htake.1,
    htake.2, List.append_nil]

theorem isWhole_of_head (hds : ∀ c ∈ ds, Numeral.isDigit c) (hhead : ds.head? = some c)
    (hc : c ≠ '0') : IsWhole ds := .inr ⟨hds, c, hhead, hc⟩

/-- Digits that start the numeral of a positive number. -/
theorem isWhole_of_append {ds' : List Char} (hn : n ≠ 0) (h : Numeral.ofNat n = ds ++ ds')
    (hne : ds ≠ []) : IsWhole ds := by
  rcases ds with - | ⟨c, ds⟩
  · exact absurd rfl hne
  · refine isWhole_of_head (fun d hd => ?_) rfl (Numeral.head_ofNat hn h)
    exact Numeral.isDigit_of_mem_ofNat (h ▸ List.mem_append_left ds' hd)

theorem isWhole_ofNat (n : Nat) : IsWhole (Numeral.ofNat n) := by
  by_cases hn : n = 0
  · subst hn
    exact .inl (Nat.toDigits_zero 10)
  · exact isWhole_of_append hn (List.append_nil _).symm (Numeral.ofNat_ne_nil n)

theorem IsWhole.append_zeros (hn : n ≠ 0) (k : Nat) :
    IsWhole (Numeral.ofNat n ++ List.replicate k '0') := by
  rw [← Numeral.ofNat_mul_pow hn]
  exact isWhole_ofNat _

theorem readWhole_append (h : IsWhole whole) {rest : List Char} (hrest : endsDigits rest) :
    readWhole (whole ++ rest) = some (whole, rest) := by
  rcases h with rfl | ⟨hdigits, c, hhead, hc⟩
  · rfl
  · obtain ⟨ds, rfl⟩ : ∃ ds, whole = c :: ds := by
      rcases whole with - | ⟨d, ds⟩
      · cases hhead
      · cases hhead
        exact ⟨ds, rfl⟩
    have hspan := spanDigits_append hdigits hrest
    rw [List.cons_append] at hspan ⊢
    unfold readWhole
    split
    · next heq => exact absurd (List.cons.inj heq).1 hc
    · simp only [hspan, List.isEmpty_cons, Bool.false_eq_true, if_false]

theorem readFraction_append (hds : ∀ c ∈ fraction, Numeral.isDigit c) (hne : fraction ≠ [])
    (hrest : endsDigits rest) : readFraction ('.' :: (fraction ++ rest)) = (fraction, rest) := by
  simp only [readFraction, spanDigits_append hds hrest, List.isEmpty_iff, hne, if_false]

theorem readFraction_of_ne (h : ∀ c ∈ rest.head?, c ≠ '.') : readFraction rest = ([], rest) := by
  unfold readFraction
  split
  · exact absurd rfl (h '.' rfl)
  · rfl

theorem readExponent_of_endsNumber (h : endsNumber rest) : readExponent rest = none := by
  unfold readExponent
  split <;> first | rfl | cases h

theorem readFraction_of_endsNumber (h : endsNumber rest) : readFraction rest = ([], rest) := by
  refine readFraction_of_ne fun c hc hpoint => ?_
  rw [endsNumber, Option.mem_def.1 hc, hpoint] at h
  cases h

/-- Digits, a point and more digits are a binary64 number. -/
theorem readNumber_fraction (negative : Bool) (hw : IsWhole whole)
    (hds : ∀ c ∈ fraction, Numeral.isDigit c) (hne : fraction ≠ []) (hrest : endsNumber rest) :
    readNumber negative (whole ++ '.' :: (fraction ++ rest)) =
      some (.ok (.float (Double.ofParts negative whole fraction 0), rest)) := by
  have hwhole : readWhole (whole ++ '.' :: (fraction ++ rest)) =
      some (whole, '.' :: (fraction ++ rest)) := readWhole_append hw rfl
  have hfraction := readFraction_append hds hne (endsDigits_of_endsNumber hrest)
  simp [readNumber, hwhole, hfraction, readExponent_of_endsNumber hrest, hne]

/-- The exponent of a number as it is written, with a sign. -/
def exponentText (power : Int) (size : List Char) : List Char :=
  'e' :: (if power < 0 then '-' else '+') :: size

theorem readExponent_append {power : Int} {size : List Char}
    (hds : ∀ c ∈ size, Numeral.isDigit c) (hne : size ≠ [])
    (hvalue : Numeral.value size = power.natAbs) (hrest : endsDigits rest) :
    readExponent (exponentText power size ++ rest) = some (power, rest) := by
  have hspan := spanDigits_append hds hrest
  have hempty : size.isEmpty = false := by simpa using hne
  by_cases hneg : power < 0
  · have hpower : -(Numeral.value size : Int) = power := by omega
    simp [exponentText, hneg, readExponent, readSigned, hspan, hempty, hpower]
  · have hpower : (Numeral.value size : Int) = power := by omega
    simp [exponentText, hneg, readExponent, readSigned, hspan, hempty, hpower]

/-- Digits with an exponent are a binary64 number, also without a point. -/
theorem readNumber_exponent (negative : Bool) {power : Int} {size : List Char}
    (hw : IsWhole whole) (hds : ∀ c ∈ fraction, Numeral.isDigit c)
    (hsize : ∀ c ∈ size, Numeral.isDigit c)
    (hne : size ≠ []) (hvalue : Numeral.value size = power.natAbs) (hrest : endsNumber rest) :
    readNumber negative (whole ++ ((if fraction.isEmpty then [] else '.' :: fraction) ++
        (exponentText power size ++ rest))) =
      some (.ok (.float (Double.ofParts negative whole fraction power), rest)) := by
  have hexponent := readExponent_append hsize hne hvalue (endsDigits_of_endsNumber hrest)
  generalize htail : exponentText power size ++ rest = tail at hexponent ⊢
  have hends : endsDigits tail ∧ readFraction tail = ([], tail) := by
    rw [← htail]
    exact ⟨rfl, rfl⟩
  by_cases hempty : fraction = []
  · subst hempty
    have hwhole := readWhole_append hw hends.1
    simp [readNumber, hwhole, hends.2, hexponent]
  · have hwhole : readWhole (whole ++ '.' :: (fraction ++ tail)) =
        some (whole, '.' :: (fraction ++ tail)) := readWhole_append hw rfl
    have hfraction := readFraction_append hds hempty hends.1
    simp [readNumber, hwhole, hfraction, hexponent, hempty]

theorem readNumber_ofNat (negative : Bool) (hshort : Numeral.length n ≤ Numeral.limit)
    (hrest : endsNumber rest) :
    readNumber negative (Numeral.ofNat n ++ rest) =
      some (.ok (.int (if negative then -(n : Int) else n), rest)) := by
  have hwhole := readWhole_append (isWhole_ofNat n) (endsDigits_of_endsNumber hrest)
  have hlong : ¬ Numeral.limit < (Numeral.ofNat n).length := Nat.not_lt.2 hshort
  simp [readNumber, hwhole, readFraction_of_endsNumber hrest, readExponent_of_endsNumber hrest,
    hlong, Numeral.value_ofNat]

/-- The digits of the exponent of a number, at least two. -/
theorem sizeText (power : Int) :
    let size := Numeral.ofNat power.natAbs
    let padded := if size.length < 2 then '0' :: size else size
    (∀ c ∈ padded, Numeral.isDigit c) ∧ padded ≠ [] ∧ Numeral.value padded = power.natAbs := by
  intro size padded
  have hdigits : ∀ c ∈ size, Numeral.isDigit c := fun c => Numeral.isDigit_of_mem_ofNat
  have hvalue : Numeral.value size = power.natAbs := Numeral.value_ofNat _
  by_cases hshort : size.length < 2
  · simp only [padded, hshort, if_true]
    refine ⟨List.forall_mem_cons.2 ⟨rfl, hdigits⟩, List.cons_ne_nil _ _, ?_⟩
    show Numeral.value (List.replicate 1 '0' ++ size) = _
    rw [Numeral.value_zeros_append, hvalue]
  · simp only [padded, hshort, if_false]
    exact ⟨hdigits, Numeral.ofNat_ne_nil _, hvalue⟩

section
variable (negative : Bool) (hn : n ≠ 0) (hrest : endsNumber rest)
include hn hrest

theorem readNumber_ofNat_take {k : Nat} (hk : 0 < k) (hlt : k < Numeral.length n) :
    readNumber negative ((Numeral.ofNat n).take k ++ '.' :: ((Numeral.ofNat n).drop k ++ rest)) =
      some (.ok (.float (Double.ofDecimal negative n (k - Numeral.length n)), rest)) := by
  have hsplit : (Numeral.ofNat n).take k ++ (Numeral.ofNat n).drop k = Numeral.ofNat n :=
    List.take_append_drop k _
  have hlength : ((Numeral.ofNat n).drop k).length = Numeral.length n - k := List.length_drop
  have htake : (Numeral.ofNat n).take k ≠ [] := by
    intro h
    have := congrArg List.length h
    rw [List.length_take, List.length_nil, ← Numeral.length] at this
    omega
  have hdrop : (Numeral.ofNat n).drop k ≠ [] := by
    intro h
    rw [h, List.length_nil] at hlength
    omega
  have hdigits : ∀ c ∈ (Numeral.ofNat n).drop k, Numeral.isDigit c := fun c hc =>
    Numeral.isDigit_of_mem_ofNat (List.mem_of_mem_drop hc)
  have hexponent : (0 : Int) - ((Numeral.ofNat n).drop k).length = k - Numeral.length n := by
    rw [hlength]
    omega
  rw [readNumber_fraction negative (isWhole_of_append hn hsplit.symm htake) hdigits hdrop hrest,
    Double.ofParts_of_append_eq negative 0 hsplit, hexponent]

/-- A positive decimal as it is written is read as the number of that decimal. -/
theorem readNumber_written (exponent : Int) :
    readNumber negative ((⟨n, exponent⟩ : Double.Decimal).written ++ rest) =
      some (.ok (.float (Double.ofDecimal negative n exponent), rest)) := by
  have hdigits : ∀ c ∈ Numeral.ofNat n, Numeral.isDigit c := fun c => Numeral.isDigit_of_mem_ofNat
  have hpos := Numeral.length_pos n
  have hlength : (Numeral.ofNat n).length = Numeral.length n := rfl
  simp only [Double.Decimal.written, hlength]
  split
  · split
    · -- the point stands before all digits
      next hpoint =>
      generalize hk : (Numeral.length n + exponent).natAbs = k
      have hexponent : exponent = -(k + Numeral.length n : Nat) := by omega
      have hzeros : ∀ c ∈ List.replicate k '0', Numeral.isDigit c := by
        intro c hc
        rw [List.eq_of_mem_replicate hc]
        rfl
      have hread := readNumber_fraction negative (.inl rfl)
        (List.forall_mem_append.2 ⟨hzeros, hdigits⟩) (by simp [Numeral.ofNat_ne_nil]) hrest
      rw [Double.ofParts_zeros_digits, ← hexponent] at hread
      simpa using hread
    split
    · -- the point stands after all digits and some zeros
      next hpoint hexponent =>
      have hnat : (exponent.toNat : Int) = exponent := Int.toNat_of_nonneg hexponent
      have hread := readNumber_fraction negative (IsWhole.append_zeros hn exponent.toNat)
        (List.forall_mem_singleton.2 rfl) (List.cons_ne_nil '0' []) hrest
      rw [Double.ofParts_digits_zeros, hnat] at hread
      simpa using hread
    · -- the point stands among the digits
      next hpoint hexponent =>
      generalize hk : (Numeral.length n + exponent).toNat = k
      have hread := readNumber_ofNat_take negative hn hrest (k := k) (by omega) (by omega)
      have : (k : Int) - Numeral.length n = exponent := by omega
      rw [this] at hread
      simpa using hread
  · -- one digit stands before the point
    generalize hpower : Numeral.length n + exponent - 1 = power
    obtain ⟨hsize, hne, hvalue⟩ := sizeText power
    have hsplit : (Numeral.ofNat n).take 1 ++ (Numeral.ofNat n).drop 1 = Numeral.ofNat n :=
      List.take_append_drop 1 _
    have htake : (Numeral.ofNat n).take 1 ≠ [] := by simp [Numeral.ofNat_ne_nil]
    have hdrop : ∀ c ∈ (Numeral.ofNat n).drop 1, Numeral.isDigit c := fun c hc =>
      hdigits c (List.mem_of_mem_drop hc)
    have hexponent : power - ((Numeral.ofNat n).drop 1).length = exponent := by
      rw [List.length_drop, hlength]
      omega
    have hread := readNumber_exponent negative (isWhole_of_append hn hsplit.symm htake) hdrop hsize
      hne hvalue hrest
    rw [Double.ofParts_of_append_eq negative power hsplit, hexponent] at hread
    simpa [exponentText] using hread

end

theorem digit_ne (hc : Numeral.isDigit c) : c ≠ '-' ∧ c ≠ '"' ∧ c ≠ '[' ∧ c ≠ '\x7b' ∧ c ≠ ']' ∧
    c ≠ 'I' ∧ Reader.isBlank c = false := by
  refine ⟨?_, ?_, ?_, ?_, ?_, ?_, ?_⟩
  case refine_7 =>
    rcases hblank : isBlank c with - | -
    · rfl
    · simp only [isBlank, Bool.or_eq_true, decide_eq_true_eq] at hblank
      rcases hblank with ((rfl | rfl) | rfl) | rfl <;> cases hc
  all_goals
    rintro rfl
    cases hc

theorem readScalar_of_digit (hc : Numeral.isDigit c) (cs : List Char) :
    readScalar (c :: cs) = (readNumber false (c :: cs)).getD (refuse .valueExpected (c :: cs)) := by
  unfold readScalar
  split
  case h_8 => rfl
  all_goals
    next heq =>
    cases heq
    cases hc

theorem readScalar_of_minus_digit (hc : Numeral.isDigit c) (cs : List Char) :
    readScalar ('-' :: c :: cs) =
      (readNumber true (c :: cs)).getD (refuse .valueExpected ('-' :: c :: cs)) := by
  unfold readScalar
  split
  case h_6 heq =>
    cases heq
    cases hc
  case h_7 heq =>
    cases heq
    rfl
  case h_8 hminus => exact absurd rfl (hminus _)
  all_goals
    next heq =>
    simp at heq

/-- What a number that was read after its sign is, where its text starts with a digit. -/
theorem readScalar_signed {read : Reading (Document × List Char)} {text : List Char}
    (negative : Bool) (hc : ∃ c cs, text = c :: cs ∧ Numeral.isDigit c)
    (hread : readNumber negative text = some read) :
    readScalar ((if negative then ['-'] else []) ++ text) = read := by
  obtain ⟨c, cs, rfl, hc⟩ := hc
  cases negative with
  | false => exact (readScalar_of_digit hc cs).trans (by rw [hread]; rfl)
  | true => exact (readScalar_of_minus_digit hc cs).trans (by rw [hread]; rfl)

theorem exists_digit_ofNat (n : Nat) (rest : List Char) :
    ∃ c cs, Numeral.ofNat n ++ rest = c :: cs ∧ Numeral.isDigit c := by
  rcases h : Numeral.ofNat n with - | ⟨c, ds⟩
  · exact absurd h (Numeral.ofNat_ne_nil n)
  · exact ⟨c, ds ++ rest, rfl, Numeral.isDigit_of_mem_ofNat (h ▸ List.mem_cons_self ..)⟩

theorem ofInt_eq (n : Int) :
    Numeral.ofInt n = (if decide (n < 0) then ['-'] else []) ++ Numeral.ofNat n.natAbs := by
  by_cases hn : n < 0 <;> simp [Numeral.ofInt, hn]

/-- An integer reads back. -/
theorem readScalar_ofInt {n : Int} (hn : Numeral.tooLong n = false) (hrest : endsNumber rest) :
    readScalar (Numeral.ofInt n ++ rest) = .ok (.int n, rest) := by
  have hshort : Numeral.length n.natAbs ≤ Numeral.limit := by
    simpa [Numeral.tooLong, Nat.not_lt] using hn
  have hsign : (if decide (n < 0) then -(n.natAbs : Int) else n.natAbs) = n := by
    simp only [decide_eq_true_eq]
    split <;> omega
  have hread := readScalar_signed (decide (n < 0)) (exists_digit_ofNat n.natAbs rest)
    (readNumber_ofNat _ hshort hrest)
  rw [hsign] at hread
  rw [ofInt_eq, List.append_assoc, hread]

theorem exists_digit_written (n : Nat) (exponent : Int) (rest : List Char) :
    ∃ c cs, (⟨n, exponent⟩ : Double.Decimal).written ++ rest = c :: cs ∧ Numeral.isDigit c := by
  obtain ⟨c, ds, hds, hc⟩ := exists_digit_ofNat n []
  rw [List.append_nil] at hds
  simp only [Double.Decimal.written, hds]
  split
  · split
    · exact ⟨'0', _, rfl, rfl⟩
    split
    · exact ⟨c, _, rfl, hc⟩
    · next hpoint _ =>
      obtain ⟨k, hk⟩ : ∃ k, (((c :: ds).length : Int) + exponent).toNat = k + 1 :=
        ⟨_, (Nat.succ_pred_eq_of_pos (by omega)).symm⟩
      rw [hk]
      exact ⟨c, _, rfl, hc⟩
  · exact ⟨c, _, rfl, hc⟩

/-- A magnitude that is written after a sign reads back with that sign. -/
theorem readNumber_writtenMagnitude (negative : Bool) (rank : Fin Double.magnitudes)
    (hrest : endsNumber rest) :
    readNumber negative (Double.writtenMagnitude rank ++ rest) =
        some (.ok (.float (.finite negative rank), rest)) ∧
      ∃ c cs, Double.writtenMagnitude rank ++ rest = c :: cs ∧ Numeral.isDigit c := by
  unfold Double.writtenMagnitude
  split
  · next hzero =>
    have hrank : rank = ⟨0, by decide⟩ := Fin.ext hzero
    have hread := readNumber_fraction negative (.inl rfl) (List.forall_mem_singleton.2 rfl)
      (List.cons_ne_nil '0' []) hrest
    refine ⟨hread.trans ?_, '0', _, rfl, rfl⟩
    rw [hrank]
    rfl
  · next hne =>
    have hdigits := Double.digits_ne_zero_of_readsAs (Double.readsAs_shortest rank) hne
    have hread := readNumber_written negative hdigits hrest (Double.shortest rank).exponent
    rw [Double.ofDecimal_shortest] at hread
    exact ⟨hread, exists_digit_written ..⟩

/-- A binary64 number reads back, the numbers without a standard form too. -/
theorem readScalar_writtenDouble (d : Double) (hrest : endsNumber rest) :
    readScalar (writtenDouble d ++ rest) = .ok (.float d, rest) := by
  cases d with
  | nan => rfl
  | infinite negative => cases negative <;> rfl
  | finite negative rank =>
    obtain ⟨hread, hdigit⟩ := readNumber_writtenMagnitude negative rank hrest
    exact (congrArg readScalar (List.append_assoc ..)).trans
      (readScalar_signed negative hdigit hread)

end Amend.Json.Reader
