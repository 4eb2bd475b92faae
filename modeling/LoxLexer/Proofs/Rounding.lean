import LoxLexer.Proofs.Ranks
import LoxLexer.Proofs.Pieces

/-!
# Number literals are correctly rounded

What it means for a double to be the nearest one, in the terms of the format: sign, exponent and
fraction are fields of the sixty-four bits, and these three give the value (`Binary64.value`). The
nearest double to a number is then singled out by `Binary64.IsNearest`, in which no rank occurs, and
by nothing else (`IsNearest.unique`).

The rank of a double is all its bits but the sign, so a carry out of the fraction moves on to the
next exponent by itself. Through `value_eq` and `significand_mod_two` the results on ranks turn into
results on fields: the nearest rank is that of the nearest double (`isNearest_nearest`).

A number token is a numeral, which stands for what its digits stand for (`positionalValue`), and its
literal is the double nearest to that (`number_literal_nearest`).
-/

namespace LoxLexer

namespace Binary64

variable {d : Decimal} {x y : Binary64} {v : ℚ} {r : Nat}

/-! ### The fields of the format -/

def signField (x : Binary64) : Nat := x.bits.toNat / 2 ^ 63

def exponentField (x : Binary64) : Nat := x.bits.toNat / 2 ^ 52 % 2 ^ 11

def fractionField (x : Binary64) : Nat := x.bits.toNat % 2 ^ 52

/-- The fraction behind a leading one, which a subnormal number has not. -/
def significand (x : Binary64) : Nat :=
  if x.exponentField = 0 then x.fractionField else 2 ^ 52 + x.fractionField

/-- Infinities and NaNs have all bits of the exponent set. -/
def HasValue (x : Binary64) : Prop := x.exponentField < 2 ^ 11 - 1

/-- The number that a double stands for if it has a value. -/
def value (x : Binary64) : ℚ :=
  (-1) ^ x.signField * x.significand * 2 ^ ((max x.exponentField 1 : Nat) - 1075 : ℤ)

/-- Half way between the largest finite number and the power of two behind it. -/
def overflowThreshold : ℚ := 2 ^ 1024 - 2 ^ 970

/-- To the number `v`, which is not negative, `x` is the nearest double, of two that are equally
near the one with the even significand. From the threshold on it is infinity. -/
structure IsNearest (v : ℚ) (x : Binary64) : Prop where
  unsigned : x.signField = 0
  overflow : overflowThreshold ≤ v → x.exponentField = 2 ^ 11 - 1 ∧ x.fractionField = 0
  hasValue : v < overflowThreshold → x.HasValue
  nearest : v < overflowThreshold → ∀ y : Binary64, y.HasValue → |x.value - v| ≤ |y.value - v|
  even : v < overflowThreshold → ∀ y : Binary64, y.HasValue → y.value ≠ x.value →
    |y.value - v| = |x.value - v| → x.significand % 2 = 0

/-! ### Ranks and fields -/

/-- The bits of a double are its sign and its rank. -/
theorem toNat_bits (x : Binary64) : x.bits.toNat = x.signField * 2 ^ 63 + x.rank := by
  simp only [signField, rank, Nat.pow_eq]
  omega

/-- The exponent is in the upper bits of the rank. -/
theorem exponentField_eq (x : Binary64) : x.exponentField = x.rank / 2 ^ 52 := by
  simp only [exponentField, rank, Nat.pow_eq]
  omega

/-- The fraction is in the lower bits of the rank. -/
theorem fractionField_eq (x : Binary64) : x.fractionField = x.rank % 2 ^ 52 := by
  simp only [fractionField, rank, Nat.pow_eq]
  omega

/-- A double is told by its sign and its rank. -/
theorem eq_of_rank (hsign : x.signField = y.signField) (hrank : x.rank = y.rank) : x = y := by
  have hbits : x.bits.toNat = y.bits.toNat := by rw [toNat_bits, toNat_bits, hsign, hrank]
  obtain ⟨bits⟩ := x
  exact congrArg mk (UInt64.toNat_inj.1 hbits)

/-- The doubles below infinity are those with a value. -/
theorem hasValue_iff : x.HasValue ↔ x.rank < infinityRank := by
  rw [HasValue, exponentField_eq]
  simp only [infinityRank, Nat.pow_eq]
  omega

/-- Infinity has the largest exponent and no fraction. -/
theorem infinity_iff : x.exponentField = 2 ^ 11 - 1 ∧ x.fractionField = 0 ↔
    x.rank = infinityRank := by
  rw [exponentField_eq, fractionField_eq]
  simp only [infinityRank, Nat.pow_eq]
  omega

/-- A significand is even exactly if the rank is. -/
theorem significand_mod_two (x : Binary64) : x.significand % 2 = x.rank % 2 := by
  rw [significand, fractionField_eq]
  split <;> omega

/-- The units of a rank are the significand shifted by the exponent. -/
theorem units_rank (x : Binary64) :
    units x.rank = x.significand * 2 ^ (max x.exponentField 1 - 1) := by
  rw [significand, exponentField_eq, fractionField_eq]
  generalize x.rank = r
  simp only [units, Nat.pow_eq]
  by_cases h : r < 2 ^ 52
  · have hexponent : r / 2 ^ 52 = 0 := by omega
    have hfraction : r % 2 ^ 52 = r := by omega
    rw [if_pos h, hexponent, if_pos rfl, hfraction]
    simp
  · have hexponent : r / 2 ^ 52 ≠ 0 := by omega
    have hmax : max (r / 2 ^ 52) 1 = r / 2 ^ 52 := by omega
    rw [if_neg h, if_neg hexponent, hmax]

theorem cast_unitsPerOne : (unitsPerOne : ℚ) = 2 ^ 1074 := by
  unfold unitsPerOne
  simp only [Nat.pow_eq, Nat.cast_pow, Nat.cast_ofNat]

/-- The value of a double is the magnitude of its rank, with its sign. -/
theorem value_eq (x : Binary64) : x.value = (-1) ^ x.signField * magnitude x.rank := by
  have hexponent : ((max x.exponentField 1 : Nat) - 1075 : ℤ) =
      (max x.exponentField 1 - 1 : Nat) - (1074 : Nat) := by omega
  rw [value, magnitude, units_rank, hexponent, zpow_sub₀ two_ne_zero, zpow_natCast, zpow_natCast,
    cast_unitsPerOne, Nat.cast_mul, Nat.cast_pow, Nat.cast_ofNat, mul_assoc, mul_div_assoc]

/-- The sign is one bit. -/
theorem signField_cases (x : Binary64) : x.signField = 0 ∨ x.signField = 1 := by
  have h := x.bits.toNat_lt
  rw [signField]
  omega

/-- A number without a sign is no farther from a number than it is with one. -/
theorem abs_magnitude_sub_le (y : Binary64) (hv : 0 ≤ v) :
    |magnitude y.rank - v| ≤ |y.value - v| := by
  have hpos := magnitude_nonneg y.rank
  rw [value_eq]
  rcases y.signField_cases with h | h <;> rw [h]
  · rw [pow_zero, one_mul]
  · have habs : |(-1) ^ 1 * magnitude y.rank - v| = magnitude y.rank + v := by
      rw [pow_one, neg_one_mul, ← abs_neg, abs_of_nonneg (by linarith)]
      ring
    rw [habs]
    exact abs_le.2 ⟨by linarith, by linarith⟩

theorem toNat_bits_ofRank (hr : r ≤ infinityRank) : (ofRank r).bits.toNat = r := by
  have hlt : infinityRank < 2 ^ 63 := by decide
  rw [ofRank]
  exact UInt64.toNat_ofNat_of_lt' (by rw [UInt64.size]; omega)

/-- A double has the rank it was made from. -/
theorem rank_ofRank (hr : r ≤ infinityRank) : (ofRank r).rank = r := by
  have hlt : infinityRank < Nat.pow 2 63 := by decide
  rw [rank, toNat_bits_ofRank hr, Nat.mod_eq_of_lt (by omega)]

/-- A double that was made from a rank has no sign. -/
theorem signField_ofRank (hr : r ≤ infinityRank) : (ofRank r).signField = 0 := by
  have hlt : infinityRank < 2 ^ 63 := by decide
  rw [signField, toNat_bits_ofRank hr, Nat.div_eq_of_lt (by omega)]

/-- Numbers are too large from half a step above the largest double on. -/
theorem overflowThreshold_eq : overflowThreshold = midpoint (infinityRank - 1) := by
  obtain ⟨k, hk⟩ : ∃ k : Nat, k = 2045 := ⟨_, rfl⟩
  have hrank : infinityRank = k * 2 ^ 52 + 2 ^ 53 := by rw [hk]; decide
  have hlast : units (k * 2 ^ 52 + (2 ^ 53 - 1)) = (2 ^ 53 - 1) * 2 ^ k :=
    units_mul_add (by decide) (.inr (by decide))
  have hnext : units (k * 2 ^ 52 + 2 ^ 53) = 2 ^ 53 * 2 ^ k :=
    units_mul_add le_rfl (.inr (by decide))
  have hpow : (2 : ℚ) ^ k = 2 ^ 1074 * (2 * 2 ^ 970) := by
    have hsplit : 2045 = 1074 + (970 + 1) := rfl
    rw [hk, hsplit, pow_add, pow_succ' (2 : ℚ) 970]
  have htop : (2 : ℚ) ^ 1024 = 2 ^ 54 * 2 ^ 970 := by
    have hsplit : 1024 = 54 + 970 := rfl
    rw [hsplit, pow_add]
  have hsub : k * 2 ^ 52 + 2 ^ 53 - 1 = k * 2 ^ 52 + (2 ^ 53 - 1) := by omega
  rw [overflowThreshold, midpoint, magnitude, magnitude, hrank, Nat.sub_add_cancel (by omega),
    hsub, hlast, hnext, cast_unitsPerOne, htop]
  push_cast
  rw [hpow]
  have hpos : (0 : ℚ) < 2 ^ 1074 := pow_pos two_pos 1074
  generalize (2 : ℚ) ^ 1074 = one at *
  generalize (2 : ℚ) ^ 970 = half at *
  field_simp
  norm_num

/-! ### Correct rounding -/

/-- Exactly the numbers that are too large are rounded to infinity. -/
theorem le_overflowThreshold_iff (d : Decimal) :
    overflowThreshold ≤ d.value ↔ nearestRank d = infinityRank := by
  have hlast : infinityRank - 1 < infinityRank := by decide
  have hodd : (infinityRank - 1) % 2 = 1 := by decide
  have hle := nearestRank_le d
  rw [overflowThreshold_eq, le_iff_lt_or_eq]
  constructor
  · intro h
    have hlt := (lt_nearestRank_iff hlast).2 (h.imp_right fun heq ↦ ⟨heq, hodd⟩)
    omega
  · intro h
    have hlt : infinityRank - 1 < nearestRank d := by
      rw [h]
      exact hlast
    exact ((lt_nearestRank_iff hlast).1 hlt).imp_right And.left

/-- **The nearest double is the nearest one.** -/
theorem isNearest_nearest (d : Decimal) : IsNearest d.value (nearest d) := by
  have hle := nearestRank_le d
  have hrank : (nearest d).rank = nearestRank d := rank_ofRank hle
  have hsign : (nearest d).signField = 0 := signField_ofRank hle
  have hvalue : (nearest d).value = magnitude (nearestRank d) := by
    rw [value_eq, hsign, hrank, pow_zero, one_mul]
  have hnonneg : 0 ≤ d.value :=
    mul_nonneg (Nat.cast_nonneg d.digits) (zpow_nonneg (by norm_num) d.exponent)
  have hlt (hv : d.value < overflowThreshold) : nearestRank d < infinityRank :=
    Nat.lt_of_le_of_ne hle (mt (le_overflowThreshold_iff d).2 hv.not_ge)
  constructor
  · exact hsign
  · intro hv
    rw [infinity_iff, hrank]
    exact (le_overflowThreshold_iff d).1 hv
  · intro hv
    rw [hasValue_iff, hrank]
    exact hlt hv
  · intro hv y _
    rw [hvalue]
    exact (nearestRank_nearest (hlt hv) y.rank).1.trans (abs_magnitude_sub_le y hnonneg)
  · intro hv y _ hne heq
    rw [significand_mod_two, hrank]
    rw [hvalue] at hne heq
    by_cases hy : y.rank = nearestRank d
    · -- the same magnitude with a sign is as near only to zero
      have hpos := magnitude_nonneg (nearestRank d)
      rw [value_eq, hy] at hne heq
      rcases y.signField_cases with h | h <;> rw [h] at hne heq
      · exact absurd (by rw [pow_zero, one_mul]) hne
      · rw [pow_one, neg_one_mul] at hne heq
        have hzero : d.value = magnitude 0 := by
          rw [magnitude_zero]
          rcases abs_eq_abs.1 heq with heq | heq
          · exact absurd (by linarith) hne
          · linarith
        rw [nearestRank_of_value (Nat.zero_le _) hzero]
    · obtain ⟨hnear, heven⟩ := nearestRank_nearest (hlt hv) y.rank
      have habs := abs_magnitude_sub_le y hnonneg
      exact heven hy (le_antisymm (habs.trans_eq heq) hnear)

/-- The double nearest to a number that is not negative has the value of its rank. -/
theorem IsNearest.value_eq (hx : IsNearest v x) : x.value = magnitude x.rank := by
  rw [Binary64.value_eq, hx.unsigned, pow_zero, one_mul]

/-- Of two doubles one below the other not both are nearest: if they are neighbours then one of them
is odd, and if they are not then one between them is nearer. -/
theorem IsNearest.rank_le (hx : IsNearest v x) (hy : IsNearest v y) (hv : v < overflowThreshold) :
    y.rank ≤ x.rank := by
  by_contra! hlt
  have hxval := hx.hasValue hv
  have hyval := hy.hasValue hv
  have hxy := magnitude_strictMono hlt
  have hdist : |y.value - v| = |x.value - v| :=
    le_antisymm (hy.nearest hv x hxval) (hx.nearest hv y hyval)
  have hmid : magnitude y.rank - v = -(magnitude x.rank - v) := by
    rw [hx.value_eq, hy.value_eq] at hdist
    rcases abs_eq_abs.1 hdist with h | h
    · linarith
    · exact h
  rcases Nat.eq_or_lt_of_le (Nat.succ_le_of_lt hlt) with hnext | hbetween
  · have hne : y.value ≠ x.value := by rw [hx.value_eq, hy.value_eq]; exact hxy.ne'
    have hxeven := hx.even hv y hyval hne hdist
    have hyeven := hy.even hv x hxval hne.symm hdist.symm
    rw [significand_mod_two] at hxeven hyeven
    omega
  · have hinfinity : x.rank + 1 < infinityRank := hbetween.trans (hasValue_iff.1 hyval)
    have hrank := rank_ofRank hinfinity.le
    have hz := hx.nearest hv (ofRank (x.rank + 1)) (hasValue_iff.2 (by rwa [hrank]))
    rw [hx.value_eq, Binary64.value_eq (ofRank _), signField_ofRank hinfinity.le, hrank, pow_zero,
      one_mul] at hz
    have hlow := magnitude_strictMono x.rank.lt_succ_self
    have hhigh := magnitude_strictMono hbetween
    have hnearer : |magnitude (x.rank + 1) - v| < |magnitude x.rank - v| := by
      rw [abs_of_neg (show magnitude x.rank - v < 0 by linarith)]
      exact abs_lt.2 ⟨by linarith, by linarith⟩
    exact absurd hz hnearer.not_ge

/-- There is only one nearest double. -/
theorem IsNearest.unique (hx : IsNearest v x) (hy : IsNearest v y) : x = y := by
  refine eq_of_rank (hx.unsigned.trans hy.unsigned.symm) ?_
  rcases le_or_gt overflowThreshold v with hv | hv
  · rw [infinity_iff.1 (hx.overflow hv), infinity_iff.1 (hy.overflow hv)]
  · exact Nat.le_antisymm (hy.rank_le hx hv) (hx.rank_le hy hv)

/-- Up to half of the least positive number, nothing is left. -/
theorem bits_nearest_of_le (h : d.value ≤ 2 ^ (-1075 : ℤ)) : (nearest d).bits = 0 := by
  have hmid : midpoint 0 = 2 ^ (-1075 : ℤ) := by
    have hone : units (0 + 1) = 1 := by decide
    have hpow : (2 : ℚ) ^ 1075 = 2 ^ 1074 * 2 := pow_succ 2 1074
    rw [midpoint, magnitude_zero, magnitude, hone, cast_unitsPerOne, zpow_neg, zpow_ofNat, hpow,
      zero_add, Nat.cast_one, div_div, one_div]
  have hrank : nearestRank d = 0 := by
    by_contra hne
    rcases (lt_nearestRank_iff (by decide)).1 (Nat.pos_of_ne_zero hne) with hlt | ⟨-, hodd⟩
    · linarith
    · exact absurd hodd (by decide)
  rw [nearest, hrank]
  rfl

/-- From the threshold on the nearest double is infinity. -/
theorem bits_nearest_of_overflow (h : overflowThreshold ≤ d.value) :
    (nearest d).bits = 0x7FF0000000000000 := by
  rw [nearest, (le_overflowThreshold_iff d).1 h]
  rfl

end Binary64

/-! ### Number tokens -/

/-- A number token is a numeral, and its literal is the double nearest to it. -/
theorem exists_numeral_of_token {source : String} {t : Token} (ht : t ∈ (lex source).tokens)
    (hkind : t.kind = .number) : ∃ n : Numeral, n.WellFormed ∧ t.lexeme = .ofList n.chars ∧
      t.literal = some (.number (.nearest n.toDecimal)) := by
  rcases mem_tokens_lex ht with ⟨x, hx, hxt⟩ | rfl
  · have hpiece := piece_mem_cut hx
    obtain ⟨hhas, hlexeme, -⟩ := PlacedPiece.eq_of_token? hxt
    obtain ⟨piece, p⟩ := x
    rw [hkind] at hhas
    cases hhas with
    | number text =>
      obtain ⟨n, hn⟩ := Numeral.exists_ofChars?_of_number (Piece.number_of_mem_cut hpiece)
      obtain ⟨hwell, hchars⟩ := Numeral.ofChars?_eq_some_iff.1 hn
      refine ⟨n, hwell, hchars ▸ hlexeme, ?_⟩
      simp only [PlacedPiece.token?, PlacedPiece.event?, hn] at hxt
      cases hxt
      rfl
  · cases hkind

/-- The number that digits stand for if so many of them as `fraction` has stand behind the
point. -/
def positionalValue (whole fraction : List Char) : ℚ :=
  Nat.ofDigitChars 10 (whole ++ fraction) 0 / 10 ^ fraction.length

/-- The decimal of a numeral has the value that its digits have by their places. -/
theorem Numeral.value_toDecimal (n : Numeral) :
    n.toDecimal.value = positionalValue n.whole n.fraction := by
  rw [Decimal.value, positionalValue, toDecimal, zpow_neg, zpow_natCast, div_eq_mul_inv]

theorem Numeral.WellFormed.digits_whole {n : Numeral} (h : n.WellFormed) :
    Grammar.Digits n.whole :=
  ⟨h.1, fun c hc ↦ Grammar.isDigit_iff.1 (h.2.1 c hc)⟩

/-- Digits, or digits on both sides of a point. -/
theorem Numeral.WellFormed.chars_cases {n : Numeral} (h : n.WellFormed) :
    n.fraction = [] ∧ n.chars = n.whole ∨
      Grammar.Digits n.fraction ∧ n.chars = n.whole ++ '.' :: n.fraction := by
  by_cases hnil : n.fraction = []
  · exact .inl ⟨hnil, if_pos hnil⟩
  · exact .inr ⟨⟨hnil, fun c hc ↦ Grammar.isDigit_iff.1 (h.2.2 c hc)⟩, if_neg hnil⟩

/-- **Number literals are correctly rounded.** The lexeme of a number is digits, or digits on both
sides of a point. Its literal is the double nearest to the number that these stand for, and no
other double is: zero without a sign up to half of the least positive number, and infinity from
half way behind the largest finite number on. -/
theorem number_literal_nearest {source : String} {t : Token} (ht : t ∈ (lex source).tokens)
    (hkind : t.kind = .number) :
    ∃ whole fraction, Grammar.Digits whole ∧
      (fraction = [] ∧ t.lexeme = .ofList whole ∨
        Grammar.Digits fraction ∧ t.lexeme = .ofList (whole ++ '.' :: fraction)) ∧
      ∃ x : Binary64, t.literal = some (.number x) ∧
        (∀ y, Binary64.IsNearest (positionalValue whole fraction) y ↔ y = x) ∧
        (positionalValue whole fraction ≤ 2 ^ (-1075 : ℤ) → x.bits = 0) ∧
        (2 ^ 1024 - 2 ^ 970 ≤ positionalValue whole fraction →
          x.bits = 0x7FF0000000000000) := by
  obtain ⟨n, hn, hlexeme, hliteral⟩ := exists_numeral_of_token ht hkind
  have hnearest := Binary64.isNearest_nearest n.toDecimal
  rw [n.value_toDecimal] at hnearest
  refine ⟨n.whole, n.fraction, hn.digits_whole, ?_, _, hliteral,
    fun y ↦ ⟨fun hy ↦ hy.unique hnearest, ?_⟩, ?_, ?_⟩
  · rw [hlexeme]
    exact hn.chars_cases.imp (And.imp_right (congrArg _)) (And.imp_right (congrArg _))
  · rintro rfl
    exact hnearest
  · rw [← n.value_toDecimal]
    exact Binary64.bits_nearest_of_le
  · rw [← n.value_toDecimal]
    exact Binary64.bits_nearest_of_overflow

/-- An odd number half way between two doubles, behind a stray character, becomes the even one. -/
theorem number_literal_nearest_of_tie :
    ⟨.number, "9007199254740993", some (.number ⟨0x4340000000000000⟩), ⟨1, 3, 3⟩⟩ ∈
        (lex "é 9007199254740993").tokens ∧
      ∀ y, Binary64.IsNearest (positionalValue "9007199254740993".toList []) y ↔
        y = ⟨0x4340000000000000⟩ := by
  have ht : (lex "é 9007199254740993").tokens[0]? = some
      ⟨.number, "9007199254740993", some (.number ⟨0x4340000000000000⟩), ⟨1, 3, 3⟩⟩ := by
    decide +kernel
  have hmem := List.mem_of_getElem? ht
  obtain ⟨whole, fraction, -, hlexeme, x, hx, hnearest, -⟩ := number_literal_nearest hmem rfl
  cases hx
  refine ⟨hmem, ?_⟩
  rcases hlexeme with ⟨rfl, hlexeme⟩ | ⟨-, hlexeme⟩
  · rwa [show "9007199254740993" = String.ofList whole from hlexeme, String.toList_ofList]
  · have hpoint : '.' ∈ "9007199254740993".toList := by
      rw [show "9007199254740993" = String.ofList (whole ++ '.' :: fraction) from hlexeme,
        String.toList_ofList]
      exact List.mem_append_right _ List.mem_cons_self
    exact absurd hpoint (by decide)

end LoxLexer
