import LoxLexer.Proofs.Rounding
import Mathlib.Data.List.DropRight

/-!
# Digits and decimals

A text of digits stands for a number, and this for fewer digits than there are: the zeros in front
say nothing, and those behind may go into a power of ten. What is left are the significant digits.
They bound the number from both sides, by powers of ten (`ofDigitChars_lt`,
`ofDigitChars_stripZeros`), so that numbers tell how many significant digits their numerals have
(`Numeral.WellFormed.exists_value_eq`).

In the other direction a decimal is written out with all its places (`Decimal.toNumeral`). That is a
numeral which stands for the decimal (`value_toNumeral`), without a zero in front or behind that
could be left out (`wholeDigits_eq_of_head?`, `getLast?_fractionDigits_ne`).
-/

namespace LoxLexer

variable {c : Char} {l : List Char}

/-! ### Digits and the numbers they stand for -/

/-- The value of a digit is below ten. -/
theorem digit_lt_ten (hc : c.isDigit) : c.toNat - '0'.toNat < 10 := by
  have hle : c.toNat ≤ '9'.toNat := (Grammar.isDigit_iff.1 hc).2
  have hnine : '9'.toNat = 57 := rfl
  have hzero : '0'.toNat = 48 := rfl
  omega

/-- The value of a digit other than zero is positive. -/
theorem digit_pos (hc : c.isDigit) (hne : c ≠ '0') : 0 < c.toNat - '0'.toNat := by
  have hle : '0'.toNat ≤ c.toNat := (Grammar.isDigit_iff.1 hc).1
  have hne : c.toNat ≠ '0'.toNat := fun heq ↦ hne (Char.toNat_inj.1 heq)
  omega

/-- A digit put behind others adds a place. -/
theorem ofDigitChars_concat (l : List Char) (c : Char) :
    Nat.ofDigitChars 10 (l ++ [c]) 0 = 10 * Nat.ofDigitChars 10 l 0 + (c.toNat - '0'.toNat) := by
  rw [Nat.ofDigitChars_append, Nat.ofDigitChars_cons, Nat.ofDigitChars_nil]

/-- So many digits stay below that power of ten. -/
theorem ofDigitChars_lt (h : ∀ c ∈ l, c.isDigit) : Nat.ofDigitChars 10 l 0 < 10 ^ l.length := by
  induction l using List.reverseRecOn with
  | nil => exact Nat.one_pos
  | append_singleton l c ih =>
    have hl := ih fun d hd ↦ h d (List.mem_append_left _ hd)
    have hc := digit_lt_ten (h c (List.mem_append_right _ (List.mem_singleton_self c)))
    rw [ofDigitChars_concat, List.length_append, List.length_singleton, Nat.pow_succ]
    omega

/-- With a digit other than zero in front, a number has all of its places. -/
theorem pow_le_ofDigitChars (hc : c.isDigit) (hne : c ≠ '0') (l : List Char) :
    10 ^ l.length ≤ Nat.ofDigitChars 10 (c :: l) 0 := by
  rw [Nat.ofDigitChars_cons, Nat.mul_zero, Nat.zero_add, Nat.ofDigitChars_eq_ofDigitChars_zero]
  exact (Nat.le_mul_of_pos_right _ (digit_pos hc hne)).trans (Nat.le_add_right _ _)

/-- A number that does not end in a zero is no multiple of ten. -/
theorem ofDigitChars_concat_mod_ten (hc : c.isDigit) (hne : c ≠ '0') (l : List Char) :
    Nat.ofDigitChars 10 (l ++ [c]) 0 % 10 ≠ 0 := by
  have hlt := digit_lt_ten hc
  have hpos := digit_pos hc hne
  rw [ofDigitChars_concat]
  omega

/-! ### Significant digits -/

/-- The digits without the zeros in front and behind. -/
def stripZeros (l : List Char) : List Char := (l.dropWhile (· = '0')).rdropWhile (· = '0')

/-- The significant digits of a text: from the first to the last that is not zero, wherever the
point stands. -/
def significantDigits (text : List Char) : List Char := stripZeros (text.filter Char.isDigit)

/-- Zeros in front do not count. -/
theorem ofDigitChars_dropWhile (l : List Char) :
    Nat.ofDigitChars 10 (l.dropWhile (· = '0')) 0 = Nat.ofDigitChars 10 l 0 := by
  induction l with
  | nil => rfl
  | cons c l ih =>
    by_cases hc : c = '0'
    · rw [List.dropWhile_cons_of_pos (by simpa using hc), ih, hc, Nat.ofDigitChars_cons]
      rfl
    · rw [List.dropWhile_cons_of_neg (by simpa using hc)]

/-- Zeros behind are a power of ten. -/
theorem exists_ofDigitChars_rdropWhile (l : List Char) : ∃ z, Nat.ofDigitChars 10 l 0 =
    Nat.ofDigitChars 10 (l.rdropWhile (· = '0')) 0 * 10 ^ z := by
  induction l using List.reverseRecOn with
  | nil => exact ⟨0, rfl⟩
  | append_singleton l c ih =>
    by_cases hc : c = '0'
    · obtain ⟨z, hz⟩ := ih
      refine ⟨z + 1, ?_⟩
      rw [List.rdropWhile_concat_pos _ _ _ (by simpa using hc), ofDigitChars_concat, hz, hc,
        Nat.sub_self, Nat.add_zero, Nat.pow_succ', Nat.mul_left_comm]
    · refine ⟨0, ?_⟩
      rw [List.rdropWhile_concat_neg _ _ _ (by simpa using hc), Nat.pow_zero, Nat.mul_one]

theorem head_stripZeros {m : List Char} (h : stripZeros l = c :: m) : c ≠ '0' := by
  obtain ⟨after, hafter⟩ := List.rdropWhile_prefix (· = '0') (l.dropWhile (· = '0'))
  have hhead : c ∈ (l.dropWhile (· = '0')).head? := by
    rw [← hafter]
    show c ∈ (stripZeros l ++ after).head?
    rw [h]
    rfl
  simpa using not_of_mem_head?_dropWhile c hhead

theorem getLast_stripZeros {m : List Char} (h : stripZeros l = m ++ [c]) : c ≠ '0' := by
  have hne : stripZeros l ≠ [] := h ▸ List.append_ne_nil_of_right_ne_nil m (List.cons_ne_nil c [])
  have hc : (stripZeros l).getLast hne = c := by simp only [h, List.getLast_append_singleton]
  rw [← hc]
  exact fun hzero ↦ List.rdropWhile_last_not (· = '0') _ hne (decide_eq_true hzero)

/-- Stripping zeros leaves no other digits than there were. -/
theorem mem_of_mem_stripZeros (h : c ∈ stripZeros l) : c ∈ l :=
  (List.dropWhile_suffix _).subset ((List.rdropWhile_prefix _ _).subset h)

/-- What digits stand for is what the significant ones stand for, times a power of ten. -/
theorem exists_ofDigitChars_stripZeros (l : List Char) :
    ∃ z, Nat.ofDigitChars 10 l 0 = Nat.ofDigitChars 10 (stripZeros l) 0 * 10 ^ z := by
  rw [← ofDigitChars_dropWhile]
  exact exists_ofDigitChars_rdropWhile _

/-- Without zeros in front and behind, no digit can be left out. -/
theorem ofDigitChars_stripZeros (hl : ∀ c ∈ l, c.isDigit) (h : stripZeros l ≠ []) :
    10 ^ ((stripZeros l).length - 1) ≤ Nat.ofDigitChars 10 (stripZeros l) 0 ∧
      Nat.ofDigitChars 10 (stripZeros l) 0 % 10 ≠ 0 := by
  constructor
  · obtain ⟨c, m, hm⟩ := List.exists_cons_of_ne_nil h
    have hc : c ∈ stripZeros l := hm ▸ List.mem_cons_self
    rw [hm, List.length_cons, Nat.add_sub_cancel]
    exact pow_le_ofDigitChars (hl c (mem_of_mem_stripZeros hc)) (head_stripZeros hm) m
  · obtain ⟨m, c, hm⟩ := (List.eq_nil_or_concat (stripZeros l)).resolve_left h
    rw [List.concat_eq_append] at hm
    have hc : c ∈ stripZeros l := hm ▸ List.mem_append_right _ (List.mem_singleton_self c)
    rw [hm]
    exact ofDigitChars_concat_mod_ten (hl c (mem_of_mem_stripZeros hc)) (getLast_stripZeros hm) m

namespace Decimal

variable {d e : Decimal}

/-- On a coarser grid a number has fewer zeros at the end. -/
theorem digits_eq_mul_of_value (h : d.value = e.value) (hle : d.exponent ≤ e.exponent) :
    d.digits = e.digits * 10 ^ (e.exponent - d.exponent).toNat := by
  obtain ⟨k, hk⟩ := Int.eq_ofNat_of_zero_le (Int.sub_nonneg_of_le hle)
  have hten : (10 : ℚ) ^ d.exponent ≠ 0 := by positivity
  have hexponent : e.exponent = k + d.exponent := by omega
  have he : e.value = value ⟨e.digits * 10 ^ k, d.exponent⟩ := by
    rw [value_mul_pow, ← hexponent]
  rw [hk, Int.toNat_natCast]
  exact Nat.cast_injective (mul_right_cancel₀ hten (h.trans he))

/-- Of equal numbers without zeros at the end the digits are equal. -/
theorem digits_eq_of_value (hd : d.digits % 10 ≠ 0) (he : e.digits % 10 ≠ 0)
    (h : d.value = e.value) : d.digits = e.digits := by
  wlog hle : d.exponent ≤ e.exponent generalizing d e
  · exact (this he hd h.symm (Int.le_of_not_le hle)).symm
  have hdigits := digits_eq_mul_of_value h hle
  cases hk : (e.exponent - d.exponent).toNat with
  | zero => rw [hdigits, hk, Nat.pow_zero, Nat.mul_one]
  | succ k =>
    rw [hk, Nat.pow_succ, ← Nat.mul_assoc] at hdigits
    exact absurd (hdigits ▸ Nat.mul_mod_left _ _) hd

end Decimal

/-! ### Numerals -/

namespace Numeral

variable {n : Numeral}

/-- The digits of a numeral are those of its two runs. -/
theorem WellFormed.filter_chars (h : n.WellFormed) :
    n.chars.filter Char.isDigit = n.whole ++ n.fraction := by
  have hwhole : n.whole.filter Char.isDigit = n.whole := List.filter_eq_self.2 h.2.1
  have hfraction : n.fraction.filter Char.isDigit = n.fraction := List.filter_eq_self.2 h.2.2
  rcases h.chars_cases with ⟨hnil, hchars⟩ | ⟨-, hchars⟩
  · rw [hchars, hnil, hwhole, List.append_nil]
  · rw [hchars, List.filter_append, List.filter_cons_of_neg (by decide), hwhole, hfraction]

/-- A numeral stands for its significant digits, read as one number, times a power of ten. -/
theorem WellFormed.exists_value_eq (h : n.WellFormed) : ∃ (m : Nat) (e : Int),
    n.toDecimal.value = Decimal.value ⟨m, e⟩ ∧
      m < 10 ^ (significantDigits n.chars).length ∧
      (significantDigits n.chars ≠ [] →
        10 ^ ((significantDigits n.chars).length - 1) ≤ m ∧ m % 10 ≠ 0) := by
  have hdigits : ∀ c ∈ n.whole ++ n.fraction, c.isDigit :=
    List.forall_mem_append.2 ⟨h.2.1, h.2.2⟩
  rw [significantDigits, h.filter_chars]
  obtain ⟨z, hz⟩ := exists_ofDigitChars_stripZeros (n.whole ++ n.fraction)
  refine ⟨_, z - n.fraction.length, ?_, ofDigitChars_lt fun c hc ↦
    hdigits c (mem_of_mem_stripZeros hc), ofDigitChars_stripZeros hdigits⟩
  rw [value_toDecimal, positionalValue, hz, Decimal.value, zpow_sub₀ (by norm_num), zpow_natCast,
    zpow_natCast, Nat.cast_mul, Nat.cast_pow, Nat.cast_ofNat, mul_div_assoc]

end Numeral

/-! ### Decimals in positional notation -/

namespace Decimal

variable {d : Decimal}

/-- The digits of a decimal in positional notation, as a numeral. -/
def toNumeral (d : Decimal) : Numeral := ⟨d.wholeDigits, d.fractionDigits⟩

/-- At least one digit is in front of the point. -/
theorem places_lt_length (d : Decimal) : d.places < d.paddedDigits.length := by
  rw [paddedDigits, List.length_append, List.length_replicate]
  omega

/-- The digits in front of the point and behind it are all digits. -/
theorem append_digits (d : Decimal) : d.wholeDigits ++ d.fractionDigits = d.paddedDigits :=
  List.take_append_drop _ _

theorem length_wholeDigits (d : Decimal) :
    d.wholeDigits.length = d.paddedDigits.length - d.places :=
  List.length_take_of_le (Nat.sub_le _ _)

/-- There are as many digits behind the point as there are places. -/
theorem length_fractionDigits (d : Decimal) : d.fractionDigits.length = d.places := by
  have h := d.places_lt_length
  rw [fractionDigits, List.length_drop]
  omega

theorem isDigit_of_mem_paddedDigits {c : Char} (h : c ∈ d.paddedDigits) : c.isDigit := by
  rcases List.mem_append.1 h with h | h
  · rw [List.eq_of_mem_replicate h]
    decide
  · exact Nat.isDigit_of_mem_toDigits (by decide) (by decide) h

/-- The positional text of a decimal is that of a numeral. -/
theorem wellFormed_toNumeral (d : Decimal) : d.toNumeral.WellFormed := by
  have hdigits : ∀ c ∈ d.wholeDigits ++ d.fractionDigits, c.isDigit := fun c hc ↦
    isDigit_of_mem_paddedDigits (d.append_digits ▸ hc)
  refine ⟨List.length_pos_iff.1 ?_, List.forall_mem_append.1 hdigits⟩
  have h := d.places_lt_length
  show 0 < d.wholeDigits.length
  rw [length_wholeDigits]
  omega

/-- A decimal is written as its numeral is. -/
theorem chars_toNumeral (d : Decimal) : d.toNumeral.chars = d.chars := by
  have hnil : d.fractionDigits = [] ↔ d.places = 0 := by
    rw [← length_fractionDigits, List.length_eq_zero_iff]
  rw [Numeral.chars, chars]
  exact if_congr hnil rfl rfl

/-- Padding with zeros does not change the number. -/
theorem ofDigitChars_paddedDigits (d : Decimal) : Nat.ofDigitChars 10 d.paddedDigits 0 = d.num := by
  rw [paddedDigits, Nat.ofDigitChars_append, Nat.ofDigitChars_replicate_zero, Nat.mul_zero,
    Nat.ofDigitChars_ten_toDigits]

/-- Written out, a decimal stands for what it is. -/
theorem value_toNumeral (d : Decimal) : d.toNumeral.toDecimal.value = d.value := by
  rw [Numeral.value_toDecimal, positionalValue]
  show (Nat.ofDigitChars 10 (d.wholeDigits ++ d.fractionDigits) 0 : ℚ) /
    10 ^ d.fractionDigits.length = _
  rw [append_digits, length_fractionDigits, ofDigitChars_paddedDigits, value_eq_div, den, places,
    Nat.pow_eq, Nat.cast_pow, Nat.cast_ofNat]

/-- Behind the point the last digit written is the last digit there is. -/
theorem getLast?_fractionDigits_ne (h : d.digits % 10 ≠ 0) :
    d.fractionDigits.getLast? ≠ some '0' := by
  intro hlast
  obtain ⟨front, hfront⟩ := List.getLast?_eq_some_iff.1 hlast
  have hplaces : 0 < d.places := by
    rw [← length_fractionDigits, hfront, List.length_append, List.length_singleton]
    exact Nat.succ_pos _
  have hnum : d.num = d.digits := by
    have hexponent : d.exponent.toNat = 0 := by
      rw [places] at hplaces
      omega
    rw [num, hexponent, Nat.pow_eq, Nat.pow_zero, Nat.mul_one]
  have hvalue := d.ofDigitChars_paddedDigits
  rw [← append_digits, hfront, ← List.append_assoc, ofDigitChars_concat, hnum] at hvalue
  omega

/-- A number is not written with a zero in front, unless it is zero. -/
theorem toDigits_ne_cons_zero {n : Nat} {c : Char} {l : List Char} :
    Nat.toDigits 10 n ≠ '0' :: c :: l := by
  intro h
  have hdigits : ∀ d ∈ c :: l, d.isDigit := fun d hd ↦
    Nat.isDigit_of_mem_toDigits (by decide) (by decide) (h ▸ List.mem_cons_of_mem '0' hd)
  have hlt : n < 10 ^ (c :: l).length := by
    have hvalue := Nat.ofDigitChars_ten_toDigits (n := n)
    rw [h, Nat.ofDigitChars_cons] at hvalue
    exact hvalue ▸ ofDigitChars_lt hdigits
  have hlength := (Nat.length_toDigits_le_iff (by decide) (by simp)).2 hlt
  rw [h] at hlength
  simp at hlength

/-- A zero stands in front of the point only if nothing else does. -/
theorem wholeDigits_eq_of_head? (h : d.wholeDigits.head? = some '0') : d.wholeDigits = ['0'] := by
  obtain ⟨rest, hrest⟩ := List.head?_eq_some_iff.1 h
  cases rest with
  | nil => exact hrest
  | cons c rest =>
    have hpadded := d.append_digits
    have hlength := d.length_wholeDigits
    rw [hrest] at hpadded hlength
    rw [List.length_cons, List.length_cons] at hlength
    rw [paddedDigits] at hpadded hlength
    rw [List.length_append, List.length_replicate] at hlength
    -- with two digits in front of the point no zero was put there
    have hnone : d.places + 1 - (Nat.toDigits 10 d.num).length = 0 := by omega
    rw [hnone, List.replicate_zero, List.nil_append] at hpadded
    exact absurd hpadded.symm toDigits_ne_cons_zero

end Decimal

end LoxLexer
