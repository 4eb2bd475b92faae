import LoxLexer.Number.Binary64
import Mathlib.Algebra.Order.Field.Power
import Mathlib.Algebra.Order.Field.Rat
import Mathlib.Tactic.FieldSimp
import Mathlib.Tactic.Linarith
import Mathlib.Tactic.Positivity
import Mathlib.Tactic.Ring

/-!
# Rounding by thresholds

Ranks count the magnitudes of doubles in increasing order. On a stretch of `2 ^ 52` ranks the
magnitudes are evenly spaced, and the upper end of a stretch is the lower end of the next
(`units_mul_add`), so that a quotient rounded up over the end of its stretch needs no care and the
magnitudes increase with the rank (`magnitude_strictMono`).

How a rank is computed is opened once, for the threshold law: a decimal is rounded beyond a rank if
it lies beyond the midpoint behind that rank, or on it and the rank is odd (`lt_nearestRank_iff`).
All else rests on this law. Rounding keeps the order (`nearestRank_mono`), leaves magnitudes what
they are (`nearestRank_of_value`) and takes a decimal to the nearest magnitude, in a tie to the one
of even rank (`nearestRank_nearest`).
-/

namespace LoxLexer

/-! ### Decimals as numbers -/

namespace Decimal

/-- The number that a decimal is. -/
def value (d : Decimal) : ℚ := d.digits * 10 ^ d.exponent

theorem value_eq_div (d : Decimal) : d.value = d.num / d.den := by
  obtain ⟨digits, exponent⟩ := d
  obtain ⟨n, rfl | rfl⟩ := exponent.eq_nat_or_neg
  · simp [value, num, den]
  · simp [value, num, den, div_eq_mul_inv]

/-- Zeros at the end may go into the exponent. -/
theorem value_mul_pow (m k : Nat) (g : Int) : value ⟨m * 10 ^ k, g⟩ = value ⟨m, k + g⟩ := by
  rw [value, value, zpow_add₀ (by norm_num), zpow_natCast]
  push_cast
  ring

end Decimal

namespace Binary64

variable {d e : Decimal} {r s k q : Nat}

/-! ### Units -/

/-- Every rank lies in a stretch of even spacing `2 ^ k`. -/
theorem exists_eq_mul_add (r : Nat) :
    ∃ k q, r = k * 2 ^ 52 + q ∧ q < 2 ^ 53 ∧ (k = 0 ∨ 2 ^ 52 ≤ q) := by
  by_cases h : r < 2 ^ 52
  · exact ⟨0, r, by omega, by omega, .inl rfl⟩
  · exact ⟨r / 2 ^ 52 - 1, 2 ^ 52 + r % 2 ^ 52, by omega, by omega, .inr (by omega)⟩

/-- On such a stretch, both ends included, the magnitude is a multiple of the spacing. -/
theorem units_mul_add (hq : q ≤ 2 ^ 53) (hk : k = 0 ∨ 2 ^ 52 ≤ q) :
    units (k * 2 ^ 52 + q) = q * 2 ^ k := by
  simp only [units, Nat.pow_eq]
  rcases Nat.lt_or_ge q (2 ^ 52) with hlt | hge
  · obtain rfl : k = 0 := by omega
    rw [if_pos (by omega), Nat.zero_mul, Nat.zero_add, Nat.pow_zero, Nat.mul_one]
  rw [if_neg (by omega)]
  rcases Nat.lt_or_ge q (2 ^ 53) with hlt | htop
  · have hmod : (k * 2 ^ 52 + q) % 2 ^ 52 = q - 2 ^ 52 := by omega
    have hdiv : (k * 2 ^ 52 + q) / 2 ^ 52 - 1 = k := by omega
    rw [hmod, hdiv, Nat.add_sub_cancel' hge]
  · -- the upper end is the lower end of the next stretch
    obtain rfl : q = 2 ^ 53 := by omega
    have hmod : (k * 2 ^ 52 + 2 ^ 53) % 2 ^ 52 = 0 := by omega
    have hdiv : (k * 2 ^ 52 + 2 ^ 53) / 2 ^ 52 - 1 = k + 1 := by omega
    rw [hmod, hdiv, Nat.add_zero, ← Nat.pow_add, ← Nat.pow_add, Nat.add_comm k, ← Nat.add_assoc]

/-- Of two ranks the greater one is worth more units. -/
theorem units_strictMono : StrictMono units := by
  refine strictMono_nat_of_lt_succ fun r ↦ ?_
  obtain ⟨k, q, rfl, hq, hk⟩ := exists_eq_mul_add r
  rw [units_mul_add hq.le hk, Nat.add_assoc, units_mul_add hq (hk.imp_right (by omega))]
  exact Nat.mul_lt_mul_of_pos_right q.lt_succ_self (Nat.two_pow_pos k)

/-- How many units make one. Nothing is gained by writing the number out. -/
@[irreducible] def unitsPerOne : Nat := Nat.pow 2 1074

theorem unitsPerOne_pos : 0 < unitsPerOne := by
  unfold unitsPerOne
  simp only [Nat.pow_eq]
  positivity

/-- The magnitude of that rank. -/
def magnitude (r : Nat) : ℚ := units r / unitsPerOne

theorem magnitude_strictMono : StrictMono magnitude := fun _ _ h ↦
  div_lt_div_of_pos_right (Nat.cast_lt.2 (units_strictMono h)) (Nat.cast_pos.2 unitsPerOne_pos)

theorem magnitude_zero : magnitude 0 = 0 := by
  have hzero : units 0 = 0 := rfl
  rw [magnitude, hzero, Nat.cast_zero, zero_div]

theorem magnitude_nonneg (r : Nat) : 0 ≤ magnitude r :=
  magnitude_zero ▸ magnitude_strictMono.monotone r.zero_le

/-- Half way between the magnitudes of that rank and the next. -/
def midpoint (r : Nat) : ℚ := (magnitude r + magnitude (r + 1)) / 2

/-- A midpoint lies above the magnitude of its rank. -/
theorem magnitude_lt_midpoint (r : Nat) : magnitude r < midpoint r := by
  have h := magnitude_strictMono r.lt_succ_self
  rw [midpoint]
  linarith

/-- It lies below the magnitudes of all greater ranks. -/
theorem midpoint_lt_magnitude (h : r < s) : midpoint r < magnitude s := by
  have hr := magnitude_strictMono r.lt_succ_self
  have hs := magnitude_strictMono.monotone (Nat.succ_le_of_lt h)
  rw [midpoint]
  linarith

/-! ### Rounding -/

theorem le_roundDiv (num den : Nat) : num / den ≤ roundDiv num den := by
  rw [roundDiv]
  split
  · exact le_rfl
  · exact Nat.le_succ _

theorem roundDiv_le (num den : Nat) : roundDiv num den ≤ num / den + 1 := by
  rw [roundDiv]
  split
  · exact Nat.le_succ _
  · exact le_rfl

/-- A quotient is rounded up from where it begins if it lies beyond half way to the next whole
number, or half way and its whole part is odd. -/
theorem lt_roundDiv_iff {num den : Nat} (hden : 0 < den) (hq : num / den = q) :
    q < roundDiv num den ↔
      den * (2 * q + 1) < 2 * num ∨ (den * (2 * q + 1) = 2 * num ∧ q % 2 = 1) := by
  have hnum := Nat.div_add_mod num den
  have hmod := Nat.mod_lt num hden
  rw [roundDiv, hq]
  rw [hq] at hnum
  have hdouble : den * (2 * q + 1) = 2 * (den * q) + den := by ring
  split <;> omega

/-- The rank nearest to `num / den` units, were there magnitudes of all ranks. -/
def unboundedRank (num den : Nat) : Nat :=
  let shift := (num / den).log2 - 52
  shift * Nat.pow 2 52 + roundDiv num (den * Nat.pow 2 shift)

/-- A quotient lies in a stretch of even spacing, and is rounded there. -/
theorem exists_unboundedRank_eq (num den : Nat) : ∃ k q, q < 2 ^ 53 ∧ (k = 0 ∨ 2 ^ 52 ≤ q) ∧
    num / (den * 2 ^ k) = q ∧ unboundedRank num den = k * 2 ^ 52 + roundDiv num (den * 2 ^ k) := by
  refine ⟨_, _, ?_, ?_, rfl, rfl⟩ <;> rw [← Nat.div_div_eq_div_mul] <;>
    generalize num / den = whole
  · rw [Nat.div_lt_iff_lt_mul (Nat.two_pow_pos _), ← Nat.pow_add]
    exact Nat.lt_log2_self.trans_le (Nat.pow_le_pow_right (by decide) (by omega))
  · by_cases hzero : whole.log2 - 52 = 0
    · exact .inl hzero
    · have hpos : whole ≠ 0 := by
        rintro rfl
        exact hzero (by rw [Nat.log2_zero])
      rw [Nat.le_div_iff_mul_le (Nat.two_pow_pos _), ← Nat.pow_add]
      exact .inr ((Nat.pow_le_pow_right (by decide) (by omega)).trans (Nat.log2_self_le hpos))

/-- The threshold in whole units, without division. -/
theorem lt_unboundedRank_iff {num den : Nat} (hden : 0 < den) : r < unboundedRank num den ↔
    den * (units r + units (r + 1)) < 2 * num ∨
      (den * (units r + units (r + 1)) = 2 * num ∧ r % 2 = 1) := by
  obtain ⟨k, q, hq, hk, hdiv, hrank⟩ := exists_unboundedRank_eq num den
  have hspacing : 0 < den * 2 ^ k := Nat.mul_pos hden (Nat.two_pow_pos k)
  have hunits : units (k * 2 ^ 52 + q) = q * 2 ^ k := units_mul_add hq.le hk
  have hunits' : units (k * 2 ^ 52 + q + 1) = (q + 1) * 2 ^ k := by
    rw [Nat.add_assoc]
    exact units_mul_add hq (hk.imp_right (by omega))
  have hlo : den * units (k * 2 ^ 52 + q) ≤ num := by
    rw [hunits, ← hdiv, Nat.mul_comm _ (2 ^ k), ← Nat.mul_assoc]
    exact Nat.mul_div_le num _
  have hhi : num < den * units (k * 2 ^ 52 + q + 1) := by
    rw [hunits', ← hdiv, Nat.mul_comm _ (2 ^ k), ← Nat.mul_assoc]
    exact Nat.lt_mul_div_succ num hspacing
  have hge := le_roundDiv num (den * 2 ^ k)
  have hle := roundDiv_le num (den * 2 ^ k)
  rw [hdiv] at hge hle
  rw [hrank]
  rcases Nat.lt_trichotomy r (k * 2 ^ 52 + q) with h | rfl | h
  · have hlow : units r < units (k * 2 ^ 52 + q) := units_strictMono h
    have hnext : units (r + 1) ≤ units (k * 2 ^ 52 + q) := units_strictMono.monotone h
    have hmid : den * (units r + units (r + 1)) < 2 * num := calc
      _ < den * (units (k * 2 ^ 52 + q) + units (k * 2 ^ 52 + q)) :=
        Nat.mul_lt_mul_of_pos_left (Nat.add_lt_add_of_lt_of_le hlow hnext) hden
      _ = 2 * (den * units (k * 2 ^ 52 + q)) := by ring
      _ ≤ 2 * num := Nat.mul_le_mul_left 2 hlo
    exact iff_of_true (by omega) (.inl hmid)
  · have hsum : den * (q * 2 ^ k + (q + 1) * 2 ^ k) = den * 2 ^ k * (2 * q + 1) := by ring
    have hparity : (k * 2 ^ 52 + q) % 2 = q % 2 := by omega
    rw [Nat.add_lt_add_iff_left, lt_roundDiv_iff hspacing hdiv, hunits, hunits', hsum, hparity]
  · have hlow : units (k * 2 ^ 52 + q + 1) ≤ units r := units_strictMono.monotone h
    have hnext : units (k * 2 ^ 52 + q + 1) ≤ units (r + 1) :=
      units_strictMono.monotone (Nat.le_succ_of_le h)
    have hmid : 2 * num < den * (units r + units (r + 1)) := calc
      _ < 2 * (den * units (k * 2 ^ 52 + q + 1)) := Nat.mul_lt_mul_of_pos_left hhi (by decide)
      _ = den * (units (k * 2 ^ 52 + q + 1) + units (k * 2 ^ 52 + q + 1)) := by ring
      _ ≤ den * (units r + units (r + 1)) :=
        Nat.mul_le_mul_left den (Nat.add_le_add hlow hnext)
    exact iff_of_false (by omega) (by omega)

/-- Ranks beyond the greatest are cut off at infinity. -/
theorem nearestRank_eq (d : Decimal) :
    nearestRank d = min infinityRank (unboundedRank (d.num * unitsPerOne) d.den) := by
  unfold nearestRank unboundedRank unitsPerOne
  with_reducible rfl

/-- **Rounding by thresholds.** A decimal is rounded beyond a rank if it lies beyond the midpoint
behind that rank, or on it and the rank is odd. -/
theorem lt_nearestRank_iff (hr : r < infinityRank) : r < nearestRank d ↔
    midpoint r < d.value ∨ (midpoint r = d.value ∧ r % 2 = 1) := by
  have hden : (0 : ℚ) < d.den := Nat.cast_pos.2 d.den_pos
  have hone : (0 : ℚ) < unitsPerOne := Nat.cast_pos.2 unitsPerOne_pos
  have hmid : midpoint r = ((d.den * (units r + units (r + 1)) : Nat) : ℚ) /
      (2 * d.den * unitsPerOne) := by
    rw [midpoint, magnitude, magnitude]
    push_cast
    field_simp
  have hvalue : d.value = ((2 * (d.num * unitsPerOne) : Nat) : ℚ) /
      (2 * d.den * unitsPerOne) := by
    rw [Decimal.value_eq_div]
    push_cast
    field_simp
  have hpos : (0 : ℚ) < 2 * d.den * unitsPerOne := by positivity
  rw [nearestRank_eq, lt_min_iff, and_iff_right hr, lt_unboundedRank_iff d.den_pos, hmid, hvalue,
    div_lt_div_iff_of_pos_right hpos, div_left_inj' hpos.ne', Nat.cast_lt, Nat.cast_inj]

theorem nearestRank_le (d : Decimal) : nearestRank d ≤ infinityRank := Nat.min_le_left _ _

/-- Rounding keeps the order. -/
theorem nearestRank_mono (h : d.value ≤ e.value) : nearestRank d ≤ nearestRank e := by
  by_contra! hlt
  have hr : nearestRank e < infinityRank := hlt.trans_le (nearestRank_le d)
  refine absurd ((lt_nearestRank_iff hr).2 ?_) (Nat.lt_irrefl (nearestRank e))
  rcases (lt_nearestRank_iff hr).1 hlt with hmid | ⟨hmid, hodd⟩
  · exact .inl (hmid.trans_le h)
  · rcases h.lt_or_eq with h | h
    · exact .inl (hmid.trans_lt h)
    · exact .inr ⟨hmid.trans h, hodd⟩

/-- The nearest rank is a matter of the value alone, however a decimal is written. -/
theorem nearestRank_congr (h : d.value = e.value) : nearestRank d = nearestRank e :=
  Nat.le_antisymm (nearestRank_mono h.le) (nearestRank_mono h.ge)

/-- What lies between two decimals of one rank has that rank. -/
theorem nearestRank_of_between {m : Decimal} (hd : nearestRank d = r) (he : nearestRank e = r)
    (hdm : d.value ≤ m.value) (hme : m.value ≤ e.value) : nearestRank m = r :=
  Nat.le_antisymm ((nearestRank_mono hme).trans_eq he) (hd.symm.trans_le (nearestRank_mono hdm))

/-- A magnitude is rounded to its own rank. -/
theorem nearestRank_of_value (hr : r ≤ infinityRank) (h : d.value = magnitude r) :
    nearestRank d = r := by
  refine Nat.le_antisymm ?_ ?_
  · by_contra! hlt
    have hmid := (lt_nearestRank_iff (hlt.trans_le (nearestRank_le d))).1 hlt
    have := magnitude_lt_midpoint r
    rcases hmid with hmid | ⟨hmid, -⟩ <;> linarith
  · cases r with
    | zero => exact Nat.zero_le _
    | succ r => exact (lt_nearestRank_iff hr).2 (.inl (h ▸ midpoint_lt_magnitude r.lt_succ_self))

/-- A decimal does not lie beyond the midpoint behind its rank, and on it only if the rank is
even. -/
theorem value_le_midpoint (hr : nearestRank d < infinityRank) :
    d.value < midpoint (nearestRank d) ∨
      (d.value = midpoint (nearestRank d) ∧ nearestRank d % 2 = 0) := by
  have h := mt (lt_nearestRank_iff hr).2 (Nat.lt_irrefl _)
  rw [not_or, not_and, not_lt] at h
  rcases h.1.lt_or_eq with hlt | heq
  · exact .inl hlt
  · exact .inr ⟨heq, by have := h.2 heq.symm; omega⟩

/-- Nor does it lie before the midpoint in front of its rank, and on it only if the rank is even. -/
theorem midpoint_le_value (hr : nearestRank d = r + 1) :
    midpoint r < d.value ∨ (midpoint r = d.value ∧ nearestRank d % 2 = 0) := by
  have hinfinity : r < infinityRank :=
    Nat.lt_of_lt_of_le (by rw [hr]; exact r.lt_succ_self) (nearestRank_le d)
  refine ((lt_nearestRank_iff hinfinity).1 (by rw [hr]; exact r.lt_succ_self)).imp_right ?_
  exact fun h ↦ ⟨h.1, by omega⟩

/-- **The nearest magnitude.** No other magnitude is nearer than the one of the rank, and if one is
as near then the rank is even. -/
theorem nearestRank_nearest (hr : nearestRank d < infinityRank) (s : Nat) :
    |magnitude (nearestRank d) - d.value| ≤ |magnitude s - d.value| ∧
      (s ≠ nearestRank d → |magnitude s - d.value| = |magnitude (nearestRank d) - d.value| →
        nearestRank d % 2 = 0) := by
  rcases Nat.lt_trichotomy s (nearestRank d) with hs | rfl | hs
  · obtain ⟨r, hsucc⟩ := Nat.exists_eq_add_one_of_ne_zero (Nat.ne_of_gt (Nat.zero_lt_of_lt hs))
    have hmid := midpoint_le_value hsucc
    rw [hsucc] at hs hmid ⊢
    have hlow := magnitude_strictMono.monotone (Nat.le_of_lt_succ hs)
    have hnext := magnitude_strictMono r.lt_succ_self
    have habs := neg_le_abs (magnitude s - d.value)
    rw [midpoint] at hmid
    rcases hmid with hmid | ⟨hmid, heven⟩
    · have hlt : |magnitude (r + 1) - d.value| < |magnitude s - d.value| :=
        abs_lt.2 ⟨by linarith, by linarith⟩
      exact ⟨hlt.le, fun _ heq ↦ absurd heq hlt.ne'⟩
    · exact ⟨abs_le.2 ⟨by linarith, by linarith⟩, fun _ _ ↦ heven⟩
  · exact ⟨le_rfl, fun hne ↦ absurd rfl hne⟩
  · have hmid := value_le_midpoint hr
    generalize nearestRank d = r at *
    have hhigh := magnitude_strictMono.monotone (Nat.succ_le_of_lt hs)
    have hnext := magnitude_strictMono r.lt_succ_self
    have habs := le_abs_self (magnitude s - d.value)
    rw [midpoint] at hmid
    rcases hmid with hmid | ⟨hmid, heven⟩
    · have hlt : |magnitude r - d.value| < |magnitude s - d.value| :=
        abs_lt.2 ⟨by linarith, by linarith⟩
      exact ⟨hlt.le, fun _ heq ↦ absurd heq hlt.ne'⟩
    · exact ⟨abs_le.2 ⟨by linarith, by linarith⟩, fun _ _ ↦ heven⟩

end Binary64

end LoxLexer
